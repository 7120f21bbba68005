import Mathlib.Algebra.Ring.Nat

/-! # Costs of ranges

What a range of lines costs is what its lines cost together. Ranges that stand side by side add up, and
a longer range costs no less. -/

namespace SourceBlocks

/-- What the lines from `first` on and before `stop` cost together. -/
def rangeCost (counts : List Nat) (first stop : Nat) : Nat := ((counts.take stop).drop first).sum

variable {counts : List Nat}

theorem sum_take_add_rangeCost (counts : List Nat) {i j : Nat} (h : i ≤ j) :
    (counts.take i).sum + rangeCost counts i j = (counts.take j).sum := by
  have hsplit := List.take_append_drop i (counts.take j)
  rw [List.take_take, Nat.min_eq_left h] at hsplit
  rw [rangeCost, ← List.sum_append, hsplit]

theorem rangeCost_self (counts : List Nat) (i : Nat) : rangeCost counts i i = 0 := by
  have h := sum_take_add_rangeCost counts (Nat.le_refl i)
  omega

theorem rangeCost_add (counts : List Nat) {i j k : Nat} (hij : i ≤ j) (hjk : j ≤ k) :
    rangeCost counts i j + rangeCost counts j k = rangeCost counts i k := by
  have h₁ := sum_take_add_rangeCost counts hij
  have h₂ := sum_take_add_rangeCost counts hjk
  have h₃ := sum_take_add_rangeCost counts (Nat.le_trans hij hjk)
  omega

theorem rangeCost_one {i : Nat} (h : i < counts.length) :
    rangeCost counts i (i + 1) = counts[i] := by
  have hsum := sum_take_add_rangeCost counts (Nat.le_succ i)
  rw [Nat.succ_eq_add_one, List.take_add_one, List.getElem?_eq_getElem h, List.sum_append] at hsum
  simpa using hsum

theorem rangeCost_le_sum (counts : List Nat) {i j : Nat} (h : i ≤ j) :
    rangeCost counts i j ≤ counts.sum := by
  have hprefix := sum_take_add_rangeCost counts h
  have hall : (counts.take j).sum + (counts.drop j).sum = counts.sum := by
    rw [← List.sum_append, List.take_append_drop]
  omega

theorem rangeCost_mono (counts : List Nat) {i j k : Nat} (hij : i ≤ j) (hjk : j ≤ k) :
    rangeCost counts i j ≤ rangeCost counts i k := by
  have h := rangeCost_add counts hij hjk
  omega

/-- A range with one more line at its end. -/
theorem rangeCost_succ {i j : Nat} (hij : i ≤ j) (hj : j < counts.length) :
    rangeCost counts i (j + 1) = rangeCost counts i j + counts[j] := by
  rw [← rangeCost_add counts hij (Nat.le_succ j), Nat.succ_eq_add_one, rangeCost_one hj]

/-- A range with one more line at its start. -/
theorem rangeCost_pred {i j : Nat} (hij : i < j) (hi : i < counts.length) :
    rangeCost counts i j = counts[i] + rangeCost counts (i + 1) j := by
  rw [← rangeCost_add counts (Nat.le_succ i) hij, Nat.succ_eq_add_one, rangeCost_one hi]

end SourceBlocks
