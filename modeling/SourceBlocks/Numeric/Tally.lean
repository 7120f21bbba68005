/-! # Tallies

Counts of things by a text key. One more thing raises the count of its key and the total by one. -/

namespace SourceBlocks

/-- Counts by key, each key once. -/
abbrev Tally := List (String × Nat)

namespace Tally

/-- One more for the key. -/
def bump (key : String) : Tally → Tally
  | [] => [(key, 1)]
  | (k, n) :: rest => if k = key then (k, n + 1) :: rest else (k, n) :: bump key rest

def count (key : String) (t : Tally) : Nat := (t.lookup key).getD 0

def total (t : Tally) : Nat := t.foldr (fun entry n => entry.2 + n) 0

theorem total_bump (key : String) (t : Tally) : (t.bump key).total = t.total + 1 := by
  induction t with
  | nil => rfl
  | cons p rest ih =>
    obtain ⟨k, n⟩ := p
    simp only [bump]
    split
    · simp [total]; omega
    · simp only [total, List.foldr_cons] at ih ⊢; omega

end Tally

end SourceBlocks
