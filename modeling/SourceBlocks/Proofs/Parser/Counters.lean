import SourceBlocks.Proofs.Parser.Slots

/-! # Counters of the parser pool

How a checkout is counted, and what a client that gives back what it took leaves of the counts. -/

namespace SourceBlocks

namespace ParserPool

variable {p q r : ParserPool}

/-- A lease is granted on the parser that the pool has at hand, or on one that is made for it. -/
theorem acquire_eq_of_ok {language : String} {lease : ParserLease}
    (hlease : (p.acquire language).lease = .ok lease) :
    (∃ slot, p.pooled.lookup language = some slot ∧ p.isFilled slot = true ∧
      lease = ⟨language, slot⟩ ∧
      (p.acquire language).pool = { p.setFilled slot false with
        acquisitions := p.acquisitions + 1, reuses := p.reuses + 1 }) ∨
    (p.pooled.lookup language = none ∧ lease = ⟨language, p.slots.length⟩ ∧
      (p.acquire language).pool = { (p.addSlot language).setFilled p.slots.length false with
        acquisitions := p.acquisitions + 1 }) := by
  rcases p.acquire_eq language with ⟨slot, hlookup, hfilled, heq⟩ | ⟨slot, -, -, heq⟩ |
    ⟨hlookup, -, heq⟩ | ⟨-, -, heq⟩
  · rw [heq] at hlease ⊢
    exact Or.inl ⟨slot, hlookup, hfilled, (Except.ok.inj hlease).symm, rfl⟩
  · rw [heq] at hlease
    exact absurd hlease (by simp)
  · rw [heq] at hlease ⊢
    exact Or.inr ⟨hlookup, (Except.ok.inj hlease).symm, rfl⟩
  · rw [heq] at hlease
    exact absurd hlease (by simp)

/-- A lease is refused because the parser is out, or because there is no grammar. -/
theorem acquire_eq_of_error {language : String} {failure : Failure}
    (hlease : (p.acquire language).lease = .error failure) :
    (failure = .parserUnavailable language "timed out waiting for parser" ∧
      (p.acquire language).pool = { p with
        acquisitions := p.acquisitions + 1, reuses := p.reuses + 1,
        timeouts := p.timeouts + 1 }) ∨
    (Language.hasGrammar language = false ∧
      (p.acquire language).pool = { p with
        acquisitions := p.acquisitions + 1, failures := p.failures + 1 }) := by
  rcases p.acquire_eq language with ⟨slot, -, -, heq⟩ | ⟨slot, -, -, heq⟩ | ⟨-, -, heq⟩ |
    ⟨-, hgrammar, heq⟩
  · rw [heq] at hlease
    exact absurd hlease (by simp)
  · rw [heq] at hlease ⊢
    exact Or.inl ⟨(Except.error.inj hlease).symm, rfl⟩
  · rw [heq] at hlease
    exact absurd hlease (by simp)
  · rw [heq]
    exact Or.inr ⟨hgrammar, rfl⟩

/-- A granted checkout counts as a reuse or makes a slot. -/
theorem acquire_ok_counts {language : String} {lease : ParserLease}
    (hlease : (p.acquire language).lease = .ok lease) :
    let q := (p.acquire language).pool
    q.acquisitions = p.acquisitions + 1 ∧ q.timeouts = p.timeouts ∧ q.failures = p.failures ∧
      q.reuses + q.slots.length = p.reuses + p.slots.length + 1 := by
  rcases acquire_eq_of_ok hlease with ⟨slot, -, -, -, hpool⟩ | ⟨-, -, hpool⟩
  · have hslots := p.length_slots_setFilled slot false
    rw [hpool]
    refine ⟨rfl, rfl, rfl, ?_⟩
    show p.reuses + 1 + (p.setFilled slot false).slots.length = p.reuses + p.slots.length + 1
    omega
  · have hslots := length_slots_setFilled (p.addSlot language) p.slots.length false
    have hnew : (p.addSlot language).slots.length = p.slots.length + 1 := by simp [addSlot]
    rw [hpool]
    refine ⟨rfl, rfl, rfl, ?_⟩
    show p.reuses + ((p.addSlot language).setFilled p.slots.length false).slots.length =
      p.reuses + p.slots.length + 1
    omega

/-- A refused checkout counts as a reuse that timed out, or as a failure where there is no
grammar. -/
theorem acquire_error_counts {language : String} {failure : Failure}
    (hlease : (p.acquire language).lease = .error failure) :
    let q := (p.acquire language).pool
    q.acquisitions = p.acquisitions + 1 ∧ q.slots = p.slots ∧
      ((q.timeouts = p.timeouts + 1 ∧ q.failures = p.failures ∧ q.reuses = p.reuses + 1) ∨
        (Language.hasGrammar language = false ∧ q.timeouts = p.timeouts ∧
          q.failures = p.failures + 1 ∧ q.reuses = p.reuses)) := by
  rcases acquire_eq_of_error hlease with ⟨-, hpool⟩ | ⟨hgrammar, hpool⟩
  · rw [hpool]
    exact ⟨rfl, rfl, Or.inl ⟨rfl, rfl, rfl⟩⟩
  · rw [hpool]
    exact ⟨rfl, rfl, Or.inr ⟨hgrammar, rfl, rfl, rfl⟩⟩

/-- The second pool has counted this many more checkouts and timeouts and no more failures, and it has
as many parsers out. -/
structure Spends (p q : ParserPool) (checkouts timeouts : Nat) : Prop where
  acquisitions : q.acquisitions = p.acquisitions + checkouts
  timeouts : q.timeouts = p.timeouts + timeouts
  failures : q.failures = p.failures
  checkedOut : q.usage.checkedOut = p.usage.checkedOut

theorem Spends.refl (p : ParserPool) : p.Spends p 0 0 := ⟨rfl, rfl, rfl, rfl⟩

theorem Spends.trans {a b c d : Nat} (h : p.Spends q a b) (h' : q.Spends r c d) :
    p.Spends r (a + c) (b + d) where
  acquisitions := by rw [h'.acquisitions, h.acquisitions, Nat.add_assoc]
  timeouts := by rw [h'.timeouts, h.timeouts, Nat.add_assoc]
  failures := h'.failures.trans h.failures
  checkedOut := h'.checkedOut.trans h.checkedOut

theorem checkedOut_congr (hpooled : q.pooled = p.pooled)
    (hfilled : ∀ slot, q.isFilled slot = p.isFilled slot) :
    q.usage.checkedOut = p.usage.checkedOut := by
  show q.pooled.countP (fun entry => !q.isFilled entry.2) =
    p.pooled.countP fun entry => !p.isFilled entry.2
  rw [hpooled]
  simp only [hfilled]

theorem checkedOut_addSlot (h : p.InRange) (language : String) :
    (p.addSlot language).usage.checkedOut = p.usage.checkedOut := by
  have hnew : (p.addSlot language).isFilled p.slots.length = true := by
    rw [isFilled_addSlot, if_pos rfl]
  show ((language, p.slots.length) :: p.pooled).countP
    (fun entry => !(p.addSlot language).isFilled entry.2) = _
  rw [List.countP_cons_of_neg (by simp [hnew])]
  refine List.countP_congr fun entry hentry => ?_
  have hold : entry.2 ≠ p.slots.length := Nat.ne_of_lt (h entry hentry)
  rw [isFilled_addSlot, if_neg hold]

/-- Taking a parser out of its slot and putting it back changes no slot. -/
theorem isFilled_putBack {slot : Nat} (hslot : slot < p.slots.length)
    (hfilled : p.isFilled slot = true) (other : Nat) :
    ((p.setFilled slot false).setFilled slot true).isFilled other = p.isFilled other := by
  have hlength := p.length_slots_setFilled slot false
  rw [isFilled_setFilled _ (by omega), isFilled_setFilled p hslot]
  by_cases h : other = slot
  · simp [h, hfilled]
  · simp [h]

/-- A checkout that is granted and given back is one more checkout. -/
theorem spends_acquire_release (h : p.InRange) {language : String} {lease : ParserLease}
    (hlease : (p.acquire language).lease = .ok lease) :
    p.Spends ((p.acquire language).pool.release lease) 1 0 := by
  obtain ⟨hall, htimeouts, hfailures, -⟩ := acquire_ok_counts hlease
  refine ⟨hall, htimeouts, hfailures, ?_⟩
  rcases acquire_eq_of_ok hlease with ⟨slot, hlookup, hfilled, rfl, hpool⟩ | ⟨-, rfl, hpool⟩
  · rw [hpool]
    exact checkedOut_congr rfl (isFilled_putBack (h.lookup_lt hlookup) hfilled)
  · have hslot : p.slots.length < (p.addSlot language).slots.length := by simp [addSlot]
    have hnew : (p.addSlot language).isFilled p.slots.length = true := by
      rw [isFilled_addSlot, if_pos rfl]
    rw [hpool, ← checkedOut_addSlot h language]
    exact checkedOut_congr rfl (isFilled_putBack hslot hnew)

/-- A checkout that is refused for a language with a grammar is one that timed out. -/
theorem spends_acquire_error {language : String} {failure : Failure}
    (hgrammar : Language.hasGrammar language = true)
    (hlease : (p.acquire language).lease = .error failure) :
    p.Spends (p.acquire language).pool 1 1 ∧
      failure = .parserUnavailable language "timed out waiting for parser" := by
  rcases acquire_eq_of_error hlease with ⟨hwhy, hpool⟩ | ⟨hnone, -⟩
  · rw [hpool]
    exact ⟨⟨rfl, rfl, rfl, rfl⟩, hwhy⟩
  · rw [hgrammar] at hnone
    exact absurd hnone (by simp)

end ParserPool

end SourceBlocks
