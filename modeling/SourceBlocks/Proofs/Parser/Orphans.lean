import Mathlib.Data.List.Induction
import SourceBlocks.Proofs.Parser.Clients

/-! # Slots that the pool forgets

A lease may outlive its place in the pool: its slot is then an orphan, and a new slot may stand in the
pool for the same language. A slot that is evicted or cleaned up is an orphan from then on, no other
slot ever is one, and what comes back to an orphan does not show in the pool. -/

namespace SourceBlocks

namespace ParserPool

variable {p : ParserPool}

/-- What comes back to an orphan does not show in the pool. -/
theorem release_orphan (p : ParserPool) {lease : ParserLease} (h : lease.slot ∉ p.pooledSlots) :
    (p.release lease).pooled = p.pooled ∧
      (∀ slot ∈ p.pooledSlots, (p.release lease).slots[slot]? = p.slots[slot]?) ∧
      (p.release lease).usage = p.usage := by
  have hslots : ∀ slot ∈ p.pooledSlots, (p.release lease).slots[slot]? = p.slots[slot]? := by
    intro slot hmem
    have hother : lease.slot ≠ slot := fun heq => h (heq ▸ hmem)
    simp [release, setFilled, hother]
  have hout : (p.release lease).usage.checkedOut = p.usage.checkedOut := by
    refine List.countP_congr fun entry hentry => ?_
    have hsame := hslots entry.2 (List.mem_map_of_mem hentry)
    rw [isFilled, isFilled, hsame]
  have husage : (p.release lease).usage =
      { p.usage with checkedOut := (p.release lease).usage.checkedOut } := rfl
  exact ⟨rfl, hslots, by rw [husage, hout]⟩

/-- A checkout leaves the pool its slots, and may add a new one. -/
theorem acquire_pooledSlots (p : ParserPool) (language : String) :
    ((p.acquire language).pool.pooledSlots = p.pooledSlots ∧
      (p.acquire language).pool.slots.length = p.slots.length) ∨
    ((p.acquire language).pool.pooledSlots = p.slots.length :: p.pooledSlots ∧
      (p.acquire language).pool.slots.length = p.slots.length + 1) := by
  rcases p.acquire_eq language with ⟨slot, -, -, heq⟩ | ⟨slot, -, -, heq⟩ | ⟨-, -, heq⟩ | ⟨-, -, heq⟩
  · rw [heq]
    exact Or.inl ⟨rfl, p.length_slots_setFilled slot false⟩
  · rw [heq]
    exact Or.inl ⟨rfl, rfl⟩
  · rw [heq]
    refine Or.inr ⟨rfl, (length_slots_setFilled ..).trans ?_⟩
    rw [addSlot, List.length_append, List.length_singleton]
  · rw [heq]
    exact Or.inl ⟨rfl, rfl⟩

/-- An eviction takes the slot of its language out of the pool and no other. -/
theorem WellPooled.mem_evict_iff (h : p.WellPooled) (language : String) (slot : Nat) :
    slot ∈ (p.evict language).2.pooledSlots ↔ slot ∈ p.pooledSlots ∧ (language, slot) ∉ p.pooled := by
  constructor
  · intro hmem
    obtain ⟨entry, hentry, rfl⟩ := List.mem_map.1 hmem
    obtain ⟨hold, hother⟩ := List.mem_filter.1 hentry
    refine ⟨List.mem_map_of_mem hold, fun hown => ?_⟩
    have hsame : entry = (language, entry.2) := List.inj_on_of_nodup_map h.apart hold hown rfl
    rw [hsame] at hother
    simp at hother
  · rintro ⟨hmem, hnone⟩
    obtain ⟨entry, hentry, rfl⟩ := List.mem_map.1 hmem
    have hother : entry.1 ≠ language := by
      rintro rfl
      exact hnone hentry
    exact List.mem_map_of_mem (List.mem_filter.2 ⟨hentry, by simpa using hother⟩)

end ParserPool

namespace SharedPool

variable {u : SharedPool} {slot : Nat}

/-- The operation takes the slot out of the pool: it evicts the language that the slot stands for, or
it cleans up. -/
def drops (u : SharedPool) (slot : Nat) : PoolOperation → Prop
  | .evict language => (language, slot) ∈ u.pool.pooled
  | .cleanup => slot ∈ u.pool.pooledSlots
  | _ => False

/-- Some operation of the history took the slot out of the pool. -/
def Dropped (history : List PoolOperation) (slot : Nat) : Prop :=
  ∃ before op after, history = before ++ op :: after ∧ (empty.run before).drops slot op

theorem dropped_concat (history : List PoolOperation) (op : PoolOperation) (slot : Nat) :
    Dropped (history ++ [op]) slot ↔ Dropped history slot ∨ (empty.run history).drops slot op := by
  constructor
  · rintro ⟨before, first, after, hsplit, hdrops⟩
    rcases List.eq_nil_or_concat after with rfl | ⟨rest, last, rfl⟩
    · obtain ⟨rfl, hop⟩ := List.append_inj' hsplit rfl
      obtain rfl := List.singleton_inj.1 hop
      exact Or.inr hdrops
    · have hrest : history = before ++ first :: rest := by
        rw [List.concat_eq_append, ← List.cons_append, ← List.append_assoc] at hsplit
        exact (List.append_inj' hsplit rfl).1
      exact Or.inl ⟨before, first, rest, hrest, hdrops⟩
  · rintro (⟨before, first, after, rfl, hdrops⟩ | hdrops)
    · exact ⟨before, first, after ++ [op], by simp, hdrops⟩
    · exact ⟨history, op, [], rfl, hdrops⟩

theorem run_concat (u : SharedPool) (history : List PoolOperation) (op : PoolOperation) :
    u.run (history ++ [op]) = (u.run history).step op := by
  rw [run, List.foldl_append]
  rfl

theorem pool_step_acquire (u : SharedPool) (client : Nat) (language : String) :
    (u.step (.acquire client language)).pool = (u.pool.acquire language).pool := by
  cases hlease : (u.pool.acquire language).lease with
  | ok lease => rw [step_acquire_ok hlease]
  | error failure => rw [step_acquire_error hlease]

theorem pooled_step_release (u : SharedPool) (client : Nat) (lease : ParserLease) :
    (u.step (.release client lease)).pool.pooledSlots = u.pool.pooledSlots ∧
      (u.step (.release client lease)).pool.slots.length = u.pool.slots.length := by
  rw [step]
  split
  · exact ⟨rfl, u.pool.length_slots_setFilled lease.slot true⟩
  · exact ⟨rfl, rfl⟩

theorem Balanced.lt_of_drops (h : u.Balanced) {op : PoolOperation} (hdrops : u.drops slot op) :
    slot < u.pool.slots.length := by
  cases op with
  | evict language => exact h.pooled.lt_of_mem (List.mem_map_of_mem hdrops)
  | cleanup => exact h.pooled.lt_of_mem hdrops
  | acquire client language => exact hdrops.elim
  | release client lease => exact hdrops.elim
  | usage => exact hdrops.elim

theorem length_slots_step (u : SharedPool) (op : PoolOperation) :
    u.pool.slots.length ≤ (u.step op).pool.slots.length := by
  cases op with
  | acquire client language =>
    rw [pool_step_acquire]
    rcases u.pool.acquire_pooledSlots language with ⟨-, hlength⟩ | ⟨-, hlength⟩
    · exact Nat.le_of_eq hlength.symm
    · omega
  | release client lease => exact Nat.le_of_eq (u.pooled_step_release client lease).2.symm
  | evict language => exact Nat.le_refl _
  | cleanup => exact Nat.le_refl _
  | usage => exact Nat.le_refl _

/-- Of the slots that there are the pool keeps those that it knows, but for those that are taken out. -/
theorem Balanced.mem_step_iff (h : u.Balanced) (hslot : slot < u.pool.slots.length)
    (op : PoolOperation) :
    slot ∈ (u.step op).pool.pooledSlots ↔ slot ∈ u.pool.pooledSlots ∧ ¬ u.drops slot op := by
  cases op with
  | acquire client language =>
    have hkept : ¬ u.drops slot (.acquire client language) := not_false
    rw [pool_step_acquire, and_iff_left hkept]
    rcases u.pool.acquire_pooledSlots language with ⟨hpooled, -⟩ | ⟨hpooled, -⟩
    · rw [hpooled]
    · rw [hpooled, List.mem_cons]
      exact or_iff_right (Nat.ne_of_lt hslot)
  | release client lease =>
    have hkept : ¬ u.drops slot (.release client lease) := not_false
    rw [(u.pooled_step_release client lease).1, and_iff_left hkept]
  | evict language => exact h.pooled.mem_evict_iff language slot
  | cleanup =>
    constructor
    · intro hmem
      exact absurd hmem List.not_mem_nil
    · rintro ⟨hmem, hkept⟩
      exact absurd hmem hkept
  | usage => exact (and_iff_left not_false).symm

/-- A new slot is put into the pool. -/
theorem mem_step_of_new (hnew : u.pool.slots.length ≤ slot) {op : PoolOperation}
    (hslot : slot < (u.step op).pool.slots.length) : slot ∈ (u.step op).pool.pooledSlots := by
  cases op with
  | acquire client language =>
    rw [pool_step_acquire] at hslot ⊢
    rcases u.pool.acquire_pooledSlots language with ⟨-, hlength⟩ | ⟨hpooled, hlength⟩
    · omega
    · have hlast : slot = u.pool.slots.length := by omega
      rw [hpooled, hlast]
      exact List.mem_cons_self
  | release client lease =>
    rw [(u.pooled_step_release client lease).2] at hslot
    omega
  | evict language => exact absurd hslot (Nat.not_lt.2 hnew)
  | cleanup => exact absurd hslot (Nat.not_lt.2 hnew)
  | usage => exact absurd hslot (Nat.not_lt.2 hnew)

/-- What the pool has forgotten it never knows again. -/
theorem Balanced.notMem_run (more : List PoolOperation) : ∀ {u : SharedPool}, u.Balanced →
    slot < u.pool.slots.length → slot ∉ u.pool.pooledSlots →
      slot ∉ (u.run more).pool.pooledSlots := by
  induction more with
  | nil => exact fun _ _ hout => hout
  | cons op rest ih =>
    intro u h hslot hout
    apply ih (h.step op) (Nat.lt_of_lt_of_le hslot (u.length_slots_step op))
    rw [h.mem_step_iff hslot op]
    exact fun hmem => hout hmem.1

theorem lt_of_dropped (history : List PoolOperation) (h : Dropped history slot) :
    slot < (empty.run history).pool.slots.length := by
  induction history using List.reverseRecOn with
  | nil =>
    obtain ⟨before, op, after, hsplit, -⟩ := h
    simp at hsplit
  | append_singleton history op ih =>
    rw [run_concat]
    apply Nat.lt_of_lt_of_le _ (length_slots_step _ op)
    rcases (dropped_concat history op slot).1 h with hold | hdrops
    · exact ih hold
    · exact (balanced_empty.run history).lt_of_drops hdrops

/-- The pool does not know a slot just when some operation took it out. -/
theorem notMem_pooledSlots_iff (history : List PoolOperation) :
    slot < (empty.run history).pool.slots.length →
      (slot ∉ (empty.run history).pool.pooledSlots ↔ Dropped history slot) := by
  induction history using List.reverseRecOn with
  | nil => exact fun hslot => absurd hslot (Nat.not_lt_zero slot)
  | append_singleton history op ih =>
    have h : (empty.run history).Balanced := balanced_empty.run history
    rw [run_concat, dropped_concat]
    intro hslot
    rcases Nat.lt_or_ge slot (empty.run history).pool.slots.length with hold | hnew
    · rw [h.mem_step_iff hold, ← ih hold, not_and_or, not_not]
    · have hnone : ¬ (Dropped history slot ∨ (empty.run history).drops slot op) := by
        rintro (hdropped | hdrops)
        · exact Nat.not_lt.2 hnew (lt_of_dropped history hdropped)
        · exact Nat.not_lt.2 hnew (h.lt_of_drops hdrops)
      exact iff_of_false (not_not_intro (mem_step_of_new hnew hslot)) hnone

/-- After any history of its clients each slot that was ever made has its parser or one lease; a
lease is granted just for a language with a grammar whose parser is in its place or not yet made; what
the pool counts as out are the leases on slots that it still knows; and each checkout is counted once
by its outcome and once by the slot it went to. An eviction leaves the pool no slot of its language
and a cleanup none at all; just what one of them took out the pool does not know, nor ever will again;
and a lease on such a slot comes back unnoticed. -/
theorem run_accounts (history : List PoolOperation) :
    let u := empty.run history
    let p := u.pool
    (∀ slot < p.slots.length,
      (p.isFilled slot = true ∧ (u.leases.map ParserLease.slot).count slot = 0) ∨
      (p.isFilled slot = false ∧ (u.leases.map ParserLease.slot).count slot = 1)) ∧
    (∀ lease ∈ u.leases, lease.slot < p.slots.length) ∧
    (∀ language, (∃ lease, (p.acquire language).lease = .ok lease) ↔
      Language.hasGrammar language = true ∧ (p.pooled.lookup language = none ∨
        ∃ slot, p.pooled.lookup language = some slot ∧ p.isFilled slot = true)) ∧
    p.usage.checkedOut = (u.leases.countP fun lease => decide (lease.slot ∈ p.pooledSlots)) ∧
    (∀ language, ∀ entry ∈ (u.step (.evict language)).pool.pooled, entry.1 ≠ language) ∧
    (u.step .cleanup).pool.pooled = [] ∧
    (∀ slot < p.slots.length, (slot ∉ p.pooledSlots ↔ Dropped history slot) ∧
      (slot ∉ p.pooledSlots → ∀ more, slot ∉ (u.run more).pool.pooledSlots)) ∧
    (∀ client lease, (client, lease) ∈ u.held → lease.slot ∉ p.pooledSlots →
      let q := (u.step (.release client lease)).pool
      q.pooled = p.pooled ∧ (∀ slot ∈ p.pooledSlots, q.slots[slot]? = p.slots[slot]?) ∧
        q.usage = p.usage) ∧
    p.usage.acquisitions = u.granted + p.usage.timeouts + p.usage.failures ∧
    p.usage.acquisitions = p.usage.reuses + p.slots.length + p.usage.failures := by
  intro u p
  have h : u.Balanced := balanced_empty.run history
  refine ⟨fun slot hslot => h.leased.filled_or_leased hslot, fun lease hlease => ?_,
    h.pooled.acquire_isOk_iff, h.leased.checkedOut_eq h.pooled, fun language entry hentry => ?_, rfl,
    fun slot hslot => ⟨notMem_pooledSlots_iff history hslot, fun hout more =>
      h.notMem_run more hslot hout⟩, fun client lease hheld horphan => ?_, h.granted, h.created⟩
  · have hout := (h.leased.mem_iff lease.slot).1 (List.mem_map_of_mem hlease)
    rw [ParserPool.isOut, Bool.and_eq_true] at hout
    exact of_decide_eq_true hout.1
  · simpa using (List.mem_filter.1 hentry).2
  · rw [step, if_pos hheld]
    exact p.release_orphan horphan

/-- Two clients hold a parser of one language each, the first on an orphan; a third one waits in vain,
and one asks for a language without a grammar. -/
def orphanHistory : List PoolOperation :=
  [.acquire 1 "python", .acquire 2 "go", .evict "python", .acquire 2 "python", .acquire 3 "python",
    .acquire 3 "cobol", .release 2 ⟨"go", 1⟩, .usage]

/-- The orphan comes back and the other parser of its language stays out. -/
theorem run_accounts_orphan :
    let u := empty.run orphanHistory
    ((1, ⟨"python", 0⟩) ∈ u.held ∧ Dropped orphanHistory 0) ∧
      (u.step (.release 1 ⟨"python", 0⟩)).pool.usage = u.pool.usage ∧
      u.pool.usage.checkedOut = 1 ∧ u.granted = 3 := by
  intro u
  have hheld : (1, ⟨"python", 0⟩) ∈ u.held := by decide
  have hdropped : Dropped orphanHistory 0 :=
    ⟨orphanHistory.take 2, .evict "python", orphanHistory.drop 3, rfl, List.mem_of_elem_eq_true rfl⟩
  obtain ⟨-, -, -, hout, -, -, hforgotten, hrelease, -⟩ := run_accounts orphanHistory
  have horphan : 0 ∉ u.pool.pooledSlots := (hforgotten 0 (by decide)).1.2 hdropped
  refine ⟨⟨hheld, hdropped⟩, (hrelease 1 ⟨"python", 0⟩ hheld horphan).2.2, hout.trans ?_, ?_⟩
  · decide
  · decide

end SharedPool

end SourceBlocks
