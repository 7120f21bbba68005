import SourceBlocks.Failure.Log

/-! # What reports add to the counters

Each report adds one to the total, one under its language and one under its operation, and touches no
other counter. -/

namespace SourceBlocks

namespace Tally

theorem lookup_bump (key other : String) (t : Tally) :
    (t.bump key).lookup other = if other = key then some (t.count key + 1) else t.lookup other := by
  induction t with
  | nil =>
    by_cases h : other = key
    · simp [bump, count, h]
    · simp [bump, h, List.lookup_cons, beq_eq_false_iff_ne.2 h]
  | cons entry rest ih =>
    obtain ⟨k, n⟩ := entry
    rw [bump]
    by_cases hkey : k = key
    · subst hkey
      rw [if_pos rfl]
      by_cases h : other = k
      · simp [count, h]
      · simp [h, List.lookup_cons, beq_eq_false_iff_ne.2 h]
    · have hcount : count key ((k, n) :: rest) = count key rest := by
        simp [count, List.lookup_cons, beq_eq_false_iff_ne.2 (Ne.symm hkey)]
      rw [if_neg hkey, List.lookup_cons, List.lookup_cons, ih, hcount]
      by_cases h : other = k
      · subst h
        simp [hkey]
      · simp [beq_eq_false_iff_ne.2 h]

/-- The second tally has this many more of each key than the first; a key with none more stands there
as before, or not at all. -/
def Grows (t t' : Tally) (more : String → Nat) : Prop :=
  ∀ key, t'.lookup key = if more key = 0 then t.lookup key else some (t.count key + more key)

variable {t t' t'' : Tally} {f g : String → Nat}

theorem Grows.count_eq (h : t.Grows t' f) (key : String) : t'.count key = t.count key + f key := by
  rw [count, h key]
  by_cases hnone : f key = 0
  · simp [hnone, count]
  · simp [hnone]

theorem Grows.trans (h : t.Grows t' f) (h' : t'.Grows t'' g) :
    t.Grows t'' fun key => f key + g key := by
  intro key
  have hcount := h.count_eq key
  rw [h' key, hcount]
  by_cases hlast : g key = 0
  · simp [hlast, h key]
  · have hmore : f key + g key ≠ 0 := by omega
    rw [if_neg hlast, if_neg hmore, Nat.add_assoc]

theorem grows_bump (t : Tally) (key : String) :
    t.Grows (t.bump key) fun other => if key = other then 1 else 0 := by
  intro other
  rw [lookup_bump]
  by_cases h : other = key
  · simp [h]
  · simp [h, Ne.symm h]

end Tally

namespace FailureLog

def recordAll (log : FailureLog) (reports : List Report) : FailureLog := reports.foldl record log

theorem recordAll_append (log : FailureLog) (reports more : List Report) :
    log.recordAll (reports ++ more) = (log.recordAll reports).recordAll more :=
  List.foldl_append

theorem total_recordAll (reports : List Report) :
    ∀ log : FailureLog, (log.recordAll reports).total = log.total + reports.length := by
  induction reports with
  | nil => intro log; rfl
  | cons r rest ih =>
    intro log
    have hfirst : (log.record r).total = log.total + 1 := rfl
    rw [recordAll, List.foldl_cons, ← recordAll, ih, hfirst, List.length_cons]
    omega

/-- A counter that every report bumps under a key of its own grows by the keys of the reports. -/
theorem grows_recordAll {counter : FailureLog → Tally} {keyOf : Report → String}
    (hrecord : ∀ log r, counter (log.record r) = (counter log).bump (keyOf r))
    (reports : List Report) :
    ∀ log : FailureLog,
      (counter log).Grows (counter (log.recordAll reports)) (reports.map keyOf).count := by
  induction reports with
  | nil => intro log key; rfl
  | cons r rest ih =>
    intro log
    have hfirst := (counter log).grows_bump (keyOf r)
    rw [← hrecord] at hfirst
    have hmore : ((r :: rest).map keyOf).count = fun key =>
        (if keyOf r = key then 1 else 0) + (rest.map keyOf).count key := by
      funext key
      simp only [List.map_cons, List.count_cons, beq_iff_eq, Nat.add_comm]
    rw [hmore]
    exact hfirst.trans (ih (log.record r))

theorem grows_byLanguage (log : FailureLog) (reports : List Report) :
    log.byLanguage.Grows (log.recordAll reports).byLanguage
      (reports.map fun r => r.origin.languageKey).count :=
  grows_recordAll (fun _ _ => rfl) reports log

theorem grows_byOperation (log : FailureLog) (reports : List Report) :
    log.byOperation.Grows (log.recordAll reports).byOperation
      (reports.map fun r => r.origin.operationKey).count :=
  grows_recordAll (fun _ _ => rfl) reports log

end FailureLog

end SourceBlocks
