/-! # Byte ranges of a text

A byte offset is a position of the text when it falls on a character boundary inside it. -/

namespace SourceBlocks.Text

def byteLength (cs : List Char) : Nat :=
  cs.foldr (fun c n => c.utf8Size + n) 0

/-- How many characters end at or before the byte offset, when it is a character boundary. -/
def charIndex? (cs : List Char) (offset : Nat) : Option Nat :=
  go cs offset 0
where
  go : List Char → Nat → Nat → Option Nat
    | _, 0, i => some i
    | [], _ + 1, _ => none
    | c :: rest, n + 1, i =>
      if c.utf8Size ≤ n + 1 then go rest (n + 1 - c.utf8Size) (i + 1) else none

/-- The characters between two byte offsets; `none` unless both are positions, in order. -/
def sliceChars? (cs : List Char) (start stop : Nat) : Option (List Char) :=
  if start ≤ stop then
    match charIndex? cs start, charIndex? cs stop with
    | some i, some j => some ((cs.drop i).take (j - i))
    | _, _ => none
  else none

def slice? (s : String) (start stop : Nat) : Option String :=
  (sliceChars? s.toList start stop).map String.ofList

theorem byteLength_nil : byteLength [] = 0 := rfl

theorem byteLength_cons (c : Char) (cs : List Char) :
    byteLength (c :: cs) = c.utf8Size + byteLength cs := by
  simp [byteLength]

end SourceBlocks.Text
