import SourceBlocks.Parser.Pool

/-! # Parsers in and out

The slots of a pool and the leases that clients hold account for each other: a slot whose parser is
out has one lease, any other has none. A client that gives back what it took leaves every slot as it
found it. -/

namespace SourceBlocks

namespace ParserPool

/-- The slot exists and its parser is out. -/
def isOut (p : ParserPool) (slot : Nat) : Bool := decide (slot < p.slots.length) && !p.isFilled slot

/-- The pool knows a parser of the language and that parser is out. -/
def isHeld (p : ParserPool) (language : String) : Bool :=
  (p.pooled.lookup language).any fun slot => !p.isFilled slot

/-- The pool knows only slots that exist. -/
def InRange (p : ParserPool) : Prop := ∀ entry ∈ p.pooled, entry.2 < p.slots.length

/-- The leases are those of the parsers that are out, one for each. -/
def Leased (p : ParserPool) (leases : List ParserLease) : Prop :=
  ∀ slot, (leases.map ParserLease.slot).count slot = (p.isOut slot).toNat

/-- The pools differ in their counters at most. -/
def SameParsers (p q : ParserPool) : Prop := q.slots = p.slots ∧ q.pooled = p.pooled

/-- Whatever was in is in, and whatever was out is out. -/
structure Resumes (p q : ParserPool) : Prop where
  inRange : q.InRange
  held : ∀ language, q.isHeld language = p.isHeld language
  out : ∀ slot, q.isOut slot = p.isOut slot

variable {p q r : ParserPool}

theorem isFilled_congr (h : q.slots = p.slots) (slot : Nat) : q.isFilled slot = p.isFilled slot := by
  rw [isFilled, isFilled, h]

theorem isOut_congr (h : q.slots = p.slots) (slot : Nat) : q.isOut slot = p.isOut slot := by
  rw [isOut, isOut, h, isFilled_congr h]

theorem isHeld_eq_of_lookup {language : String} {slot : Nat}
    (h : p.pooled.lookup language = some slot) : p.isHeld language = !p.isFilled slot := by
  simp [isHeld, h]

theorem isHeld_eq_false_of_lookup {language : String} (h : p.pooled.lookup language = none) :
    p.isHeld language = false := by
  simp [isHeld, h]

theorem length_slots_setFilled (p : ParserPool) (slot : Nat) (filled : Bool) :
    (p.setFilled slot filled).slots.length = p.slots.length := by
  simp [setFilled]

theorem isFilled_setFilled (p : ParserPool) {slot : Nat} (hslot : slot < p.slots.length)
    (filled : Bool) (other : Nat) :
    (p.setFilled slot filled).isFilled other =
      if other = slot then filled else p.isFilled other := by
  rw [isFilled, setFilled]
  dsimp only
  rw [List.getElem?_modify]
  by_cases h : other = slot
  · subst h
    simp [hslot]
  · simp [h, Ne.symm h, isFilled]

theorem isOut_setFilled (p : ParserPool) {slot : Nat} (hslot : slot < p.slots.length)
    (filled : Bool) (other : Nat) :
    (p.setFilled slot filled).isOut other =
      if other = slot then !filled else p.isOut other := by
  rw [isOut, length_slots_setFilled, isFilled_setFilled p hslot]
  by_cases h : other = slot
  · subst h
    simp [hslot]
  · simp [h, isOut]

theorem isFilled_addSlot (p : ParserPool) (language : String) (slot : Nat) :
    (p.addSlot language).isFilled slot =
      if slot = p.slots.length then true else p.isFilled slot := by
  rw [isFilled, addSlot]
  dsimp only
  rw [List.getElem?_append]
  by_cases hlt : slot < p.slots.length
  · simp [hlt, Nat.ne_of_lt hlt, isFilled]
  · by_cases heq : slot = p.slots.length
    · simp [heq]
    · have hlast : [({ language, filled := true } : ParserSlot)][slot - p.slots.length]? = none :=
        List.getElem?_eq_none (by simp; omega)
      simp [hlt, heq, isFilled, hlast]

theorem isOut_addSlot (p : ParserPool) (language : String) (slot : Nat) :
    (p.addSlot language).isOut slot = p.isOut slot := by
  rw [isOut, isFilled_addSlot, isOut]
  by_cases h : slot = p.slots.length
  · simp [h, addSlot]
  · have hlt : slot < p.slots.length + 1 ↔ slot < p.slots.length := by omega
    simp [h, addSlot, hlt]

theorem InRange.lookup_lt (h : p.InRange) {language : String} {slot : Nat}
    (hlookup : p.pooled.lookup language = some slot) : slot < p.slots.length := by
  obtain ⟨before, after, hpooled, -⟩ := List.lookup_eq_some_iff.1 hlookup
  exact h (language, slot) (by simp [hpooled])

theorem InRange.addSlot (h : p.InRange) (language : String) : (p.addSlot language).InRange := by
  intro entry hentry
  have hlength : (p.addSlot language).slots.length = p.slots.length + 1 := by
    simp [ParserPool.addSlot]
  rw [hlength]
  rcases List.mem_cons.1 hentry with rfl | hold
  · exact Nat.lt_succ_self _
  · exact Nat.lt_succ_of_lt (h entry hold)

theorem InRange.setFilled (h : p.InRange) (slot : Nat) (filled : Bool) :
    (p.setFilled slot filled).InRange := by
  intro entry hentry
  rw [length_slots_setFilled]
  exact h entry hentry

theorem SameParsers.inRange (h : p.SameParsers q) (hrange : p.InRange) : q.InRange := by
  intro entry hentry
  rw [h.1]
  exact hrange entry (h.2 ▸ hentry)

/-- All that a checkout can do: a known parser is handed out if it is in its place, a new one is made
for a language with a grammar and handed out, and otherwise nothing but counters changes. -/
theorem acquire_eq (p : ParserPool) (language : String) :
    (∃ slot, p.pooled.lookup language = some slot ∧ p.isFilled slot = true ∧
      p.acquire language =
        ⟨.ok ⟨language, slot⟩, { p.setFilled slot false with
          acquisitions := p.acquisitions + 1, reuses := p.reuses + 1 }⟩) ∨
    (∃ slot, p.pooled.lookup language = some slot ∧ p.isFilled slot = false ∧
      p.acquire language =
        ⟨.error (.parserUnavailable language "timed out waiting for parser"), { p with
          acquisitions := p.acquisitions + 1, reuses := p.reuses + 1,
          timeouts := p.timeouts + 1 }⟩) ∨
    (p.pooled.lookup language = none ∧ Language.hasGrammar language = true ∧
      p.acquire language =
        ⟨.ok ⟨language, p.slots.length⟩, { (p.addSlot language).setFilled p.slots.length false with
          acquisitions := p.acquisitions + 1 }⟩) ∨
    (p.pooled.lookup language = none ∧ Language.hasGrammar language = false ∧
      p.acquire language =
        ⟨.error (.unsupportedLanguage language), { p with
          acquisitions := p.acquisitions + 1, failures := p.failures + 1 }⟩) := by
  rw [acquire]
  dsimp only
  cases hlookup : p.pooled.lookup language with
  | some slot =>
    dsimp only
    have hcounted : isFilled { p with
        acquisitions := p.acquisitions + 1, reuses := p.reuses + 1 } slot = p.isFilled slot := rfl
    rw [takeFrom, hcounted]
    cases hfilled : p.isFilled slot with
    | true => exact Or.inl ⟨slot, rfl, hfilled, rfl⟩
    | false => exact Or.inr (Or.inl ⟨slot, rfl, hfilled, rfl⟩)
  | none =>
    dsimp only
    cases hgrammar : Language.hasGrammar language with
    | true =>
      have hnew : isFilled (addSlot { p with acquisitions := p.acquisitions + 1 } language)
          p.slots.length = true := by
        rw [isFilled_addSlot]
        simp
      rw [if_pos rfl, takeFrom, hnew]
      exact Or.inr (Or.inr (Or.inl ⟨rfl, rfl, rfl⟩))
    | false => exact Or.inr (Or.inr (Or.inr ⟨rfl, rfl, rfl⟩))

theorem acquire_cases (p : ParserPool) (language : String) :
    (∃ slot, p.pooled.lookup language = some slot ∧ p.isFilled slot = true ∧
      (p.acquire language).lease = .ok ⟨language, slot⟩ ∧
      (p.setFilled slot false).SameParsers (p.acquire language).pool) ∨
    (∃ slot, p.pooled.lookup language = some slot ∧ p.isFilled slot = false ∧
      (p.acquire language).lease =
        .error (.parserUnavailable language "timed out waiting for parser") ∧
      p.SameParsers (p.acquire language).pool) ∨
    (p.pooled.lookup language = none ∧ Language.hasGrammar language = true ∧
      (p.acquire language).lease = .ok ⟨language, p.slots.length⟩ ∧
      ((p.addSlot language).setFilled p.slots.length false).SameParsers
        (p.acquire language).pool) ∨
    (p.pooled.lookup language = none ∧ Language.hasGrammar language = false ∧
      (p.acquire language).lease = .error (.unsupportedLanguage language) ∧
      p.SameParsers (p.acquire language).pool) := by
  rcases p.acquire_eq language with ⟨slot, hlookup, hfilled, heq⟩ | ⟨slot, hlookup, hempty, heq⟩ |
    ⟨hlookup, hgrammar, heq⟩ | ⟨hlookup, hgrammar, heq⟩
  · rw [heq]
    exact Or.inl ⟨slot, hlookup, hfilled, rfl, rfl, rfl⟩
  · rw [heq]
    exact Or.inr (Or.inl ⟨slot, hlookup, hempty, rfl, rfl, rfl⟩)
  · rw [heq]
    exact Or.inr (Or.inr (Or.inl ⟨hlookup, hgrammar, rfl, rfl, rfl⟩))
  · rw [heq]
    exact Or.inr (Or.inr (Or.inr ⟨hlookup, hgrammar, rfl, rfl, rfl⟩))

theorem Resumes.refl (h : p.InRange) : p.Resumes p := ⟨h, fun _ => rfl, fun _ => rfl⟩

theorem Resumes.trans (h : p.Resumes q) (h' : q.Resumes r) : p.Resumes r where
  inRange := h'.inRange
  held language := (h'.held language).trans (h.held language)
  out slot := (h'.out slot).trans (h.out slot)

theorem SameParsers.resumes (h : p.SameParsers q) (hrange : p.InRange) : p.Resumes q where
  inRange := h.inRange hrange
  held language := by
    rw [isHeld, isHeld, h.2]
    simp only [isFilled_congr h.1]
  out := isOut_congr h.1

/-- A parser that is taken out of its slot and put back is where it was. -/
theorem resumes_release (h : p.InRange) {slot : Nat} (hslot : slot < p.slots.length)
    (hfilled : p.isFilled slot = true) (hq : (p.setFilled slot false).SameParsers q)
    (language : String) : p.Resumes (q.release ⟨language, slot⟩) := by
  have hlength : q.slots.length = p.slots.length := by rw [hq.1, length_slots_setFilled]
  have hback : ∀ other, (q.setFilled slot true).isFilled other = p.isFilled other := by
    intro other
    rw [isFilled_setFilled q (hlength ▸ hslot), isFilled_congr hq.1, isFilled_setFilled p hslot]
    by_cases hother : other = slot
    · simp [hother, hfilled]
    · simp [hother]
  constructor
  · exact (hq.inRange (h.setFilled slot false)).setFilled slot true
  · intro other
    rw [isHeld, isHeld, release, show (q.setFilled slot true).pooled = p.pooled from hq.2]
    simp only [hback]
  · intro other
    rw [isOut, isOut, release, length_slots_setFilled, hlength, hback]

theorem resumes_addSlot (h : p.InRange) {language : String}
    (hnone : p.pooled.lookup language = none) : p.Resumes (p.addSlot language) := by
  refine ⟨h.addSlot language, fun other => ?_, isOut_addSlot p language⟩
  by_cases hother : other = language
  · subst hother
    have hlookup : (p.addSlot other).pooled.lookup other = some p.slots.length :=
      List.lookup_cons_self
    rw [isHeld_eq_false_of_lookup hnone, isHeld_eq_of_lookup hlookup, isFilled_addSlot, if_pos rfl]
    rfl
  · have hpooled : (p.addSlot language).pooled.lookup other = p.pooled.lookup other := by
      simp [addSlot, List.lookup_cons, beq_eq_false_iff_ne.2 hother]
    cases hlookup : p.pooled.lookup other with
    | none =>
      rw [isHeld_eq_false_of_lookup hlookup, isHeld_eq_false_of_lookup (hpooled.trans hlookup)]
    | some slot =>
      rw [isHeld_eq_of_lookup hlookup, isHeld_eq_of_lookup (hpooled.trans hlookup),
        isFilled_addSlot, if_neg (Nat.ne_of_lt (h.lookup_lt hlookup))]

/-- A checkout that is granted takes a parser that was in its place, made for it if need be. -/
theorem acquire_ok (h : p.InRange) {language : String} {lease : ParserLease}
    (hlease : (p.acquire language).lease = .ok lease) :
    p.isHeld language = false ∧ ∃ q slot, lease = ⟨language, slot⟩ ∧ p.Resumes q ∧
      slot < q.slots.length ∧ q.isFilled slot = true ∧
      (q.setFilled slot false).SameParsers (p.acquire language).pool := by
  rcases p.acquire_cases language with ⟨slot, hlookup, hfilled, hok, hsame⟩ |
    ⟨slot, -, -, herror, -⟩ | ⟨hlookup, -, hok, hsame⟩ | ⟨-, -, herror, -⟩
  · rw [hok] at hlease
    cases hlease
    have hin : p.isHeld language = false := by rw [isHeld_eq_of_lookup hlookup, hfilled]; rfl
    exact ⟨hin, p, slot, rfl, .refl h, h.lookup_lt hlookup, hfilled, hsame⟩
  · rw [herror] at hlease
    exact absurd hlease (by simp)
  · rw [hok] at hlease
    cases hlease
    have hnew : (p.addSlot language).isFilled p.slots.length = true := by
      rw [isFilled_addSlot, if_pos rfl]
    have hslot : p.slots.length < (p.addSlot language).slots.length := by simp [addSlot]
    exact ⟨isHeld_eq_false_of_lookup hlookup, p.addSlot language, p.slots.length, rfl,
      resumes_addSlot h hlookup, hslot, hnew, hsame⟩
  · rw [herror] at hlease
    exact absurd hlease (by simp)

/-- A checkout is refused for a parser that is out or for a language without a grammar, and leaves
the parsers as they are. -/
theorem acquire_error (h : p.InRange) {language : String} {failure : Failure}
    (hlease : (p.acquire language).lease = .error failure) :
    (p.isHeld language = true ∨ Language.hasGrammar language = false) ∧
      p.Resumes (p.acquire language).pool := by
  rcases p.acquire_cases language with ⟨slot, -, -, hok, -⟩ | ⟨slot, hlookup, hempty, -, hsame⟩ |
    ⟨-, -, hok, -⟩ | ⟨-, hgrammar, -, hsame⟩
  · rw [hok] at hlease
    exact absurd hlease (by simp)
  · have hout : p.isHeld language = true := by rw [isHeld_eq_of_lookup hlookup, hempty]; rfl
    exact ⟨Or.inl hout, hsame.resumes h⟩
  · rw [hok] at hlease
    exact absurd hlease (by simp)
  · exact ⟨Or.inr hgrammar, hsame.resumes h⟩

/-- A checkout that is given back leaves the pool as it was, but for a parser that was made for
it. -/
theorem resumes_acquire_release (h : p.InRange) {language : String} {lease : ParserLease}
    (hlease : (p.acquire language).lease = .ok lease) :
    p.Resumes ((p.acquire language).pool.release lease) := by
  obtain ⟨-, q, slot, rfl, hq, hslot, hfilled, hsame⟩ := acquire_ok h hlease
  exact hq.trans (resumes_release hq.inRange hslot hfilled hsame language)

theorem InRange.release (h : p.InRange) (lease : ParserLease) : (p.release lease).InRange :=
  h.setFilled lease.slot true

theorem InRange.acquire (h : p.InRange) (language : String) :
    (p.acquire language).pool.InRange := by
  rcases p.acquire_cases language with ⟨slot, -, -, -, hsame⟩ | ⟨slot, -, -, -, hsame⟩ |
    ⟨-, -, -, hsame⟩ | ⟨-, -, -, hsame⟩
  · exact hsame.inRange (h.setFilled slot false)
  · exact hsame.inRange h
  · exact hsame.inRange ((h.addSlot language).setFilled _ false)
  · exact hsame.inRange h

theorem InRange.evict (h : p.InRange) (language : String) : (p.evict language).2.InRange :=
  fun entry hentry => h entry (List.mem_filter.1 hentry).1

theorem InRange.cleanup (p : ParserPool) : p.cleanup.2.InRange :=
  fun _ hentry => absurd hentry List.not_mem_nil

theorem leased_empty : empty.Leased [] := fun _ => rfl

theorem Leased.congr {leases : List ParserLease} (h : p.Leased leases)
    (hout : ∀ slot, q.isOut slot = p.isOut slot) : q.Leased leases := by
  intro slot
  rw [hout]
  exact h slot

theorem Leased.take {leases : List ParserLease} (h : p.Leased leases) {slot : Nat}
    (hslot : slot < p.slots.length) (hfilled : p.isFilled slot = true)
    (hq : (p.setFilled slot false).SameParsers q) (language : String) :
    q.Leased (⟨language, slot⟩ :: leases) := by
  intro other
  rw [isOut_congr hq.1, isOut_setFilled p hslot, List.map_cons, List.count_cons, h other]
  by_cases hother : other = slot
  · subst hother
    simp [isOut, hfilled]
  · simp [hother, Ne.symm hother]

theorem Leased.acquire {leases : List ParserLease} (h : p.Leased leases) (hrange : p.InRange)
    {language : String} {lease : ParserLease} (hlease : (p.acquire language).lease = .ok lease) :
    (p.acquire language).pool.Leased (lease :: leases) := by
  obtain ⟨-, q, slot, rfl, hq, hslot, hfilled, hsame⟩ := acquire_ok hrange hlease
  exact (h.congr hq.out).take hslot hfilled hsame language

theorem Leased.release {lease : ParserLease} {leases rest : List ParserLease}
    (h : p.Leased leases) (hperm : leases.Perm (lease :: rest)) :
    (p.release lease).Leased rest := by
  have hcount : ∀ slot, ((lease :: rest).map ParserLease.slot).count slot = (p.isOut slot).toNat :=
    fun slot => ((hperm.map ParserLease.slot).count_eq slot).symm.trans (h slot)
  simp only [List.map_cons, List.count_cons] at hcount
  have hout : p.isOut lease.slot = true := by
    cases hin : p.isOut lease.slot with
    | true => rfl
    | false => exact absurd (hcount lease.slot) (by simp [hin])
  have hslot : lease.slot < p.slots.length := by
    simp only [isOut, Bool.and_eq_true, decide_eq_true_eq] at hout
    exact hout.1
  intro other
  rw [ParserPool.release, isOut_setFilled p hslot]
  by_cases hother : other = lease.slot
  · subst hother
    have hone := hcount lease.slot
    rw [hout] at hone
    simpa using hone
  · have hsame := hcount other
    simpa [hother, Ne.symm hother] using hsame

theorem Leased.isOut_eq_false (h : p.Leased []) (slot : Nat) : p.isOut slot = false := by
  have hcount := h slot
  cases hout : p.isOut slot with
  | false => rfl
  | true =>
    rw [hout] at hcount
    exact absurd hcount (by simp)

theorem isHeld_eq_false (hrange : p.InRange) (hout : ∀ slot, p.isOut slot = false)
    (language : String) : p.isHeld language = false := by
  cases hlookup : p.pooled.lookup language with
  | none => exact isHeld_eq_false_of_lookup hlookup
  | some slot =>
    have hin := hout slot
    rw [isOut, decide_eq_true (hrange.lookup_lt hlookup), Bool.true_and] at hin
    rw [isHeld_eq_of_lookup hlookup, hin]

theorem usage_checkedOut_eq_zero (hrange : p.InRange) (hout : ∀ slot, p.isOut slot = false) :
    p.usage.checkedOut = 0 := by
  apply List.countP_eq_zero.2
  intro entry hentry
  have hin := hout entry.2
  rw [isOut, decide_eq_true (hrange entry hentry), Bool.true_and] at hin
  simp [hin]

end ParserPool

end SourceBlocks
