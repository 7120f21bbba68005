import SourceBlocks.Proofs.Parser.Counters
import Mathlib.Data.List.Nodup

/-! # Clients of the parser pool

Clients check parsers out, give them back, and make the pool forget parsers, in any order. The counters
of the pool, its slots and the leases of its clients account for each other throughout. -/

namespace SourceBlocks

/-- One thing that a client does with the pool. -/
inductive PoolOperation where
  | acquire (client : Nat) (language : String)
  | release (client : Nat) (lease : ParserLease)
  | evict (language : String)
  | cleanup
  | usage

/-- A pool, the leases that are out, each with the client that holds it, and how many leases were ever
granted. -/
structure SharedPool where
  pool : ParserPool
  held : List (Nat × ParserLease)
  granted : Nat

namespace ParserPool

/-- The slots that the pool knows. -/
def pooledSlots (p : ParserPool) : List Nat := p.pooled.map Prod.snd

/-- The pool knows slots that exist, each for one language, and only languages with a grammar. -/
structure WellPooled (p : ParserPool) : Prop where
  inRange : p.InRange
  apart : p.pooledSlots.Nodup
  grammar : ∀ entry ∈ p.pooled, Language.hasGrammar entry.1 = true

variable {p q : ParserPool} {leases : List ParserLease}

theorem wellPooled_empty : empty.WellPooled where
  inRange _ h := absurd h List.not_mem_nil
  apart := List.Pairwise.nil
  grammar _ h := absurd h List.not_mem_nil

theorem WellPooled.lt_of_mem (h : p.WellPooled) {slot : Nat} (hmem : slot ∈ p.pooledSlots) :
    slot < p.slots.length := by
  obtain ⟨entry, hentry, rfl⟩ := List.mem_map.1 hmem
  exact h.inRange entry hentry

theorem WellPooled.of_sublist (h : p.WellPooled) (hslots : q.slots.length = p.slots.length)
    (hpooled : q.pooled.Sublist p.pooled) : q.WellPooled where
  inRange entry hentry := by
    rw [hslots]
    exact h.inRange entry (hpooled.subset hentry)
  apart := h.apart.sublist (hpooled.map Prod.snd)
  grammar entry hentry := h.grammar entry (hpooled.subset hentry)

theorem WellPooled.addSlot (h : p.WellPooled) {language : String}
    (hgrammar : Language.hasGrammar language = true) : (p.addSlot language).WellPooled where
  inRange := h.inRange.addSlot language
  apart := by
    refine List.nodup_cons.2 ⟨fun hmem => ?_, h.apart⟩
    obtain ⟨entry, hentry, hslot⟩ := List.mem_map.1 hmem
    have hlt := h.inRange entry hentry
    omega
  grammar entry hentry := by
    rcases List.mem_cons.1 hentry with rfl | hold
    · exact hgrammar
    · exact h.grammar entry hold

theorem WellPooled.acquire (h : p.WellPooled) (language : String) :
    (p.acquire language).pool.WellPooled := by
  rcases p.acquire_eq language with ⟨slot, -, -, heq⟩ | ⟨slot, -, -, heq⟩ |
    ⟨-, hgrammar, heq⟩ | ⟨-, -, heq⟩
  · rw [heq]
    exact h.of_sublist (p.length_slots_setFilled slot false) (.refl _)
  · rw [heq]
    exact h.of_sublist rfl (.refl _)
  · rw [heq]
    exact (h.addSlot hgrammar).of_sublist (length_slots_setFilled ..) (.refl _)
  · rw [heq]
    exact h.of_sublist rfl (.refl _)

theorem WellPooled.release (h : p.WellPooled) (lease : ParserLease) :
    (p.release lease).WellPooled :=
  h.of_sublist (p.length_slots_setFilled lease.slot true) (.refl _)

theorem WellPooled.lookup_grammar (h : p.WellPooled) {language : String} {slot : Nat}
    (hlookup : p.pooled.lookup language = some slot) : Language.hasGrammar language = true := by
  obtain ⟨before, after, hpooled, -⟩ := List.lookup_eq_some_iff.1 hlookup
  exact h.grammar (language, slot) (by simp [hpooled])

/-- A lease is granted just for a language with a grammar whose parser is in its place or not yet
made. -/
theorem WellPooled.acquire_isOk_iff (h : p.WellPooled) (language : String) :
    (∃ lease, (p.acquire language).lease = .ok lease) ↔
      Language.hasGrammar language = true ∧ (p.pooled.lookup language = none ∨
        ∃ slot, p.pooled.lookup language = some slot ∧ p.isFilled slot = true) := by
  rcases p.acquire_eq language with ⟨slot, hlookup, hfilled, heq⟩ | ⟨slot, hlookup, hempty, heq⟩ |
    ⟨hlookup, hgrammar, heq⟩ | ⟨hlookup, hgrammar, heq⟩
  · simp [heq, h.lookup_grammar hlookup, hlookup, hfilled]
  · simp [heq, hlookup, hempty]
  · simp [heq, hlookup, hgrammar]
  · simp [heq, hgrammar]

/-- A slot that exists has its parser and no lease, or one lease and no parser. -/
theorem Leased.filled_or_leased (h : p.Leased leases) {slot : Nat} (hslot : slot < p.slots.length) :
    (p.isFilled slot = true ∧ (leases.map ParserLease.slot).count slot = 0) ∨
      (p.isFilled slot = false ∧ (leases.map ParserLease.slot).count slot = 1) := by
  have hcount := h slot
  rw [isOut, decide_eq_true hslot, Bool.true_and] at hcount
  cases hfilled : p.isFilled slot with
  | true => exact Or.inl ⟨rfl, by rw [hcount, hfilled]; rfl⟩
  | false => exact Or.inr ⟨rfl, by rw [hcount, hfilled]; rfl⟩

theorem Leased.mem_iff (h : p.Leased leases) (slot : Nat) :
    slot ∈ leases.map ParserLease.slot ↔ p.isOut slot = true := by
  rw [← List.count_pos_iff, h slot]
  cases p.isOut slot <;> simp

theorem Leased.nodup (h : p.Leased leases) : (leases.map ParserLease.slot).Nodup := by
  rw [List.nodup_iff_count_le_one]
  intro slot
  rw [h slot]
  exact Bool.toNat_le _

/-- The parsers of the pool that are out are those of the leases whose slots the pool still
knows. -/
theorem Leased.checkedOut_eq (h : p.Leased leases) (hpool : p.WellPooled) :
    p.usage.checkedOut = leases.countP fun lease => decide (lease.slot ∈ p.pooledSlots) := by
  have hslots : p.usage.checkedOut = (p.pooledSlots.filter fun slot => !p.isFilled slot).length := by
    rw [← List.countP_eq_length_filter, pooledSlots, List.countP_map]
    rfl
  have hleases : (leases.countP fun lease => decide (lease.slot ∈ p.pooledSlots)) =
      ((leases.map ParserLease.slot).filter fun slot => decide (slot ∈ p.pooledSlots)).length := by
    rw [← List.countP_eq_length_filter, List.countP_map]
    rfl
  rw [hslots, hleases]
  -- both are the slots of the pool that are out, and none occurs twice in either
  refine List.Perm.length_eq ((List.perm_ext_iff_of_nodup (hpool.apart.filter _)
    (h.nodup.filter _)).2 fun slot => ?_)
  simp only [List.mem_filter, h.mem_iff, isOut, Bool.and_eq_true, decide_eq_true_eq]
  constructor
  · rintro ⟨hmem, hout⟩
    exact ⟨⟨hpool.lt_of_mem hmem, hout⟩, hmem⟩
  · rintro ⟨⟨-, hout⟩, hmem⟩
    exact ⟨hmem, hout⟩

end ParserPool

namespace SharedPool

def empty : SharedPool := ⟨.empty, [], 0⟩

/-- The leases that are out, whoever holds them. -/
def leases (u : SharedPool) : List ParserLease := u.held.map Prod.snd

/-- What one operation leaves. A client that is granted a lease holds it until it gives it back, and
gives back only what it holds. -/
def step (u : SharedPool) : PoolOperation → SharedPool
  | .acquire client language =>
    let answer := u.pool.acquire language
    match answer.lease with
    | .ok lease => ⟨answer.pool, (client, lease) :: u.held, u.granted + 1⟩
    | .error _ => { u with pool := answer.pool }
  | .release client lease =>
    if (client, lease) ∈ u.held then
      { u with pool := u.pool.release lease, held := u.held.erase (client, lease) }
    else u
  | .evict language => { u with pool := (u.pool.evict language).2 }
  | .cleanup => { u with pool := u.pool.cleanup.2 }
  | .usage => u

def run (u : SharedPool) (history : List PoolOperation) : SharedPool := history.foldl step u

/-- Slots, leases and counters account for each other. -/
structure Balanced (u : SharedPool) : Prop where
  pooled : u.pool.WellPooled
  leased : u.pool.Leased u.leases
  granted : u.pool.acquisitions = u.granted + u.pool.timeouts + u.pool.failures
  created : u.pool.acquisitions = u.pool.reuses + u.pool.slots.length + u.pool.failures

variable {u : SharedPool}

theorem balanced_empty : empty.Balanced :=
  ⟨ParserPool.wellPooled_empty, ParserPool.leased_empty, rfl, rfl⟩

theorem step_acquire_ok {language : String} {lease : ParserLease}
    (h : (u.pool.acquire language).lease = .ok lease) (client : Nat) :
    u.step (.acquire client language) =
      ⟨(u.pool.acquire language).pool, (client, lease) :: u.held, u.granted + 1⟩ := by
  simp only [step, h]

theorem step_acquire_error {language : String} {failure : Failure}
    (h : (u.pool.acquire language).lease = .error failure) (client : Nat) :
    u.step (.acquire client language) = { u with pool := (u.pool.acquire language).pool } := by
  simp only [step, h]

theorem Balanced.acquire (h : u.Balanced) (client : Nat) (language : String) :
    (u.step (.acquire client language)).Balanced := by
  have hpool := h.pooled.acquire language
  have hgranted := h.granted
  have hcreated := h.created
  cases hlease : (u.pool.acquire language).lease with
  | ok lease =>
    obtain ⟨hall, htimeouts, hfailures, hmade⟩ := ParserPool.acquire_ok_counts hlease
    rw [step_acquire_ok hlease]
    refine ⟨hpool, h.leased.acquire h.pooled.inRange hlease, ?_, ?_⟩
    · dsimp only
      omega
    · dsimp only
      omega
  | error failure =>
    obtain ⟨hall, hslots, hwhy⟩ := ParserPool.acquire_error_counts hlease
    have hsame := (ParserPool.acquire_error h.pooled.inRange hlease).2
    rw [step_acquire_error hlease]
    refine ⟨hpool, h.leased.congr hsame.out, ?_, ?_⟩
    · dsimp only
      omega
    · dsimp only
      rw [hslots]
      omega

theorem Balanced.release (h : u.Balanced) (client : Nat) (lease : ParserLease) :
    (u.step (.release client lease)).Balanced := by
  rw [step]
  split
  case isTrue hheld =>
    have hleases : u.leases.Perm (lease :: (u.held.erase (client, lease)).map Prod.snd) :=
      (List.perm_cons_erase hheld).map Prod.snd
    have hlength := u.pool.length_slots_setFilled lease.slot true
    refine ⟨h.pooled.release lease, h.leased.release hleases, h.granted, ?_⟩
    exact h.created.trans (by rw [← hlength]; rfl)
  case isFalse => exact h

/-- No operation upsets the balance. What is forgotten stays with the clients that hold it. -/
theorem Balanced.step (h : u.Balanced) (op : PoolOperation) : (u.step op).Balanced := by
  cases op with
  | acquire client language => exact h.acquire client language
  | release client lease => exact h.release client lease
  | evict language =>
    have hpool : (u.pool.evict language).2.WellPooled :=
      h.pooled.of_sublist rfl List.filter_sublist
    exact ⟨hpool, h.leased, h.granted, h.created⟩
  | cleanup =>
    have hpool : u.pool.cleanup.2.WellPooled := h.pooled.of_sublist rfl (List.nil_sublist _)
    exact ⟨hpool, h.leased, h.granted, h.created⟩
  | usage => exact h

theorem Balanced.run (history : List PoolOperation) :
    ∀ {u : SharedPool}, u.Balanced → (u.run history).Balanced := by
  induction history with
  | nil => exact fun h => h
  | cons op rest ih => exact fun h => ih (h.step op)

end SharedPool

end SourceBlocks
