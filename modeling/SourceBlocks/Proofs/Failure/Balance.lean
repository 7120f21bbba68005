import Mathlib.Data.List.DropRight
import Mathlib.Data.List.Induction
import SourceBlocks.Proofs.Failure.Counts

/-! # Counters balance

Failures are reported at their own severity or another, and the counters are reset, in any order. The
total and the sums of both tallies are the number of reports since the last reset, and each entry is
the number of those with its key. No counter exceeds the number of reports, so that with fewer than
2 ^ 64 of them each fits a word. -/

namespace SourceBlocks

namespace Tally

/-- The tally counts a list of keys: an entry for each of them, with the number of its occurrences. -/
structure Counts (t : Tally) (keys : List String) : Prop where
  once : (t.map Prod.fst).Nodup
  sum : t.total = keys.length
  lookup : ∀ key, t.lookup key = if key ∈ keys then some (keys.count key) else none
  le : ∀ entry ∈ t, entry.2 ≤ keys.length

theorem counts_nil : Counts [] [] := ⟨List.nodup_nil, rfl, by simp, by simp⟩

theorem keys_bump (key : String) (t : Tally) :
    (t.bump key).map Prod.fst =
      if key ∈ t.map Prod.fst then t.map Prod.fst else t.map Prod.fst ++ [key] := by
  induction t with
  | nil => rfl
  | cons entry rest ih =>
    obtain ⟨k, n⟩ := entry
    rw [bump]
    by_cases hkey : k = key
    · simp [hkey]
    · rw [if_neg hkey, List.map_cons, List.map_cons, ih]
      by_cases h : key ∈ rest.map Prod.fst
      · simp [h]
      · simp [h, Ne.symm hkey]

theorem le_total (t : Tally) : ∀ entry ∈ t, entry.2 ≤ t.total := by
  induction t with
  | nil => simp
  | cons first rest ih =>
    intro entry hentry
    rw [total, List.foldr_cons, ← total]
    rcases List.mem_cons.1 hentry with rfl | hrest
    · omega
    · have := ih entry hrest
      omega

/-- One more for a key counts the key once more. -/
theorem Counts.bump {t : Tally} {keys : List String} (h : t.Counts keys) (key : String) :
    (t.bump key).Counts (keys ++ [key]) := by
  have hsum : (t.bump key).total = (keys ++ [key]).length := by
    rw [total_bump, h.sum, List.length_append, List.length_singleton]
  refine ⟨?_, hsum, fun other => ?_, hsum ▸ le_total _⟩
  · rw [keys_bump]
    split
    case isTrue => exact h.once
    case isFalse hnew =>
      exact (List.perm_append_singleton key _).nodup_iff.2 (List.nodup_cons.2 ⟨hnew, h.once⟩)
  · have hcount : t.count key = keys.count key := by
      rw [count, h.lookup]
      split
      case isTrue => rfl
      case isFalse hnone => rw [List.count_eq_zero_of_not_mem hnone, Option.getD_none]
    rw [lookup_bump, hcount, h.lookup, List.count_append]
    by_cases hother : other = key
    · subst hother
      simp
    · simp [hother, Ne.symm hother]

end Tally

/-- One thing that a client does with the failure log. -/
inductive LogCall where
  | report (failure : Failure) (origin : Origin)
  | reportAs (failure : Failure) (origin : Origin) (severity : Severity)
  | reset
  deriving DecidableEq, Repr

namespace LogCall

def report? : LogCall → Option Report
  | report failure origin => some (failure.reportAt origin)
  | reportAs failure origin severity => some ⟨failure, origin, severity⟩
  | reset => none

/-- The reports that came after the last reset. -/
def sinceReset (calls : List LogCall) : List Report :=
  (calls.rtakeWhile (· != reset)).filterMap report?

theorem sinceReset_reset (calls : List LogCall) : sinceReset (calls ++ [reset]) = [] := by
  rw [sinceReset, List.rtakeWhile_concat_neg _ _ _ (by simp)]
  rfl

theorem sinceReset_report {call : LogCall} {r : Report} (h : call.report? = some r)
    (calls : List LogCall) : sinceReset (calls ++ [call]) = sinceReset calls ++ [r] := by
  have hcall : call ≠ reset := by
    rintro rfl
    simp [report?] at h
  rw [sinceReset, List.rtakeWhile_concat_pos _ _ _ (by simpa using hcall), List.filterMap_append,
    List.filterMap_cons, h, ← sinceReset]
  rfl

end LogCall

namespace FailureLog

/-- The log after one call. -/
def step (log : FailureLog) : LogCall → FailureLog
  | .report failure origin => log.record (failure.reportAt origin)
  | .reportAs failure origin severity => log.record ⟨failure, origin, severity⟩
  | .reset => empty

def run (log : FailureLog) (calls : List LogCall) : FailureLog := calls.foldl step log

/-- The counters are those of a list of reports: a report without a language counts as `unknown`, and
one of an operation under the names of component and operation with a dot between. -/
structure Balances (log : FailureLog) (reports : List Report) : Prop where
  total : log.total = reports.length
  byLanguage : log.byLanguage.Counts (reports.map fun r => r.origin.language.getD "unknown")
  byOperation : log.byOperation.Counts
    (reports.map fun r => r.origin.component ++ "." ++ r.origin.operation)

theorem balances_empty : empty.Balances [] := ⟨rfl, Tally.counts_nil, Tally.counts_nil⟩

theorem Balances.record {log : FailureLog} {reports : List Report} (h : log.Balances reports)
    (r : Report) : (log.record r).Balances (reports ++ [r]) := by
  refine ⟨?_, ?_, ?_⟩
  · rw [List.length_append, ← h.total]
    rfl
  · rw [List.map_append]
    exact h.byLanguage.bump r.origin.languageKey
  · rw [List.map_append]
    exact h.byOperation.bump r.origin.operationKey

/-- A call keeps the counters in balance. -/
theorem Balances.step {log : FailureLog} {calls : List LogCall}
    (h : log.Balances (LogCall.sinceReset calls)) (call : LogCall) :
    (log.step call).Balances (LogCall.sinceReset (calls ++ [call])) := by
  cases call with
  | report failure origin =>
    rw [LogCall.sinceReset_report rfl]
    exact h.record _
  | reportAs failure origin severity =>
    rw [LogCall.sinceReset_report rfl]
    exact h.record _
  | reset =>
    rw [LogCall.sinceReset_reset]
    exact balances_empty

/-- After any calls the counters are those of the reports since the last reset. -/
theorem run_balances (calls : List LogCall) :
    (empty.run calls).Balances (LogCall.sinceReset calls) := by
  induction calls using List.reverseRecOn with
  | nil => exact balances_empty
  | append_singleton calls call ih =>
    rw [run, List.foldl_append, List.foldl_cons, List.foldl_nil, ← run]
    exact ih.step call

/-- A report without a language counts with those of a language called `unknown`, and operations of
different components may share an entry. -/
example :
    let failure := Failure.invalidSettings "detail"
    empty.run [.report failure ⟨"a", "b", none, none⟩, .reset,
        .report failure ⟨"a.b", "c", none, none⟩,
        .reportAs failure ⟨"a", "b.c", some "unknown", none⟩ .low] =
      ⟨2, [("unknown", 2)], [("a.b.c", 2)]⟩ := by
  decide

end FailureLog

end SourceBlocks
