/-! # White space

The white-space class of Unicode, trimming at both ends, and counting words. Everything is stated on
lists of characters; the `String` forms wrap it. -/

namespace SourceBlocks.Text

def isBlank (c : Char) : Bool :=
  let n := c.toNat
  (9 ≤ n && n ≤ 13) || n == 0x20 || n == 0x85 || n == 0xA0 || n == 0x1680 ||
    (0x2000 ≤ n && n ≤ 0x200A) || n == 0x2028 || n == 0x2029 || n == 0x202F || n == 0x205F ||
    n == 0x3000

/-- The characters without those of the class `p` at either end. -/
def stripEnds (p : Char → Bool) (cs : List Char) : List Char :=
  ((cs.dropWhile p).reverse.dropWhile p).reverse

def trim (s : String) : String :=
  String.ofList (stripEnds isBlank s.toList)

def trimmedLength (cs : List Char) : Nat :=
  (stripEnds isBlank cs).length

/-- A text is blank when it holds white space only. -/
def isBlankText (s : String) : Bool :=
  s.toList.all isBlank

/-- The number of maximal runs of characters that are not white space. -/
def wordCount (cs : List Char) : Nat :=
  (cs.foldl (fun (st : Bool × Nat) c =>
    if isBlank c then (false, st.2) else (true, if st.1 then st.2 else st.2 + 1)) (false, 0)).2

theorem trimmedLength_nil : trimmedLength [] = 0 := rfl

theorem dropWhile_of_all {p : Char → Bool} {cs : List Char} (h : cs.all p = true) :
    cs.dropWhile p = [] := by
  induction cs with
  | nil => rfl
  | cons c cs ih =>
    simp only [List.all_cons, Bool.and_eq_true] at h
    simp [h.1, ih h.2]

theorem stripEnds_of_all {p : Char → Bool} {cs : List Char} (h : cs.all p = true) :
    stripEnds p cs = [] := by
  simp [stripEnds, dropWhile_of_all h]

end SourceBlocks.Text
