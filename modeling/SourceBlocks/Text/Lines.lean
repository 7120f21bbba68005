/-! # Lines of a text

A newline ends a line and a carriage return right before it belongs to the ending. A last line
without a newline keeps what it holds, and no empty line follows the last newline. -/

namespace SourceBlocks.Text

/-- The lines of the text that follows a character, and whether it starts with a newline. -/
structure LineScan where
  lines : List (List Char)
  atBreak : Bool

def LineScan.cons (c : Char) (rest : LineScan) : LineScan :=
  if c = '\n' then ⟨[] :: rest.lines, true⟩
  else if c = '\r' && rest.atBreak then ⟨rest.lines, false⟩
  else match rest.lines, rest.atBreak with
    | [], _ => ⟨[[c]], false⟩
    | l :: ls, _ => ⟨(c :: l) :: ls, false⟩

/-- The lines of a list of characters, without their endings. -/
def charLines (cs : List Char) : List (List Char) :=
  (cs.foldr LineScan.cons ⟨[], false⟩).lines

def lines (s : String) : List String :=
  (charLines s.toList).map String.ofList

/-- The number of lines, at least one. -/
def lineCount (s : String) : Nat :=
  max (charLines s.toList).length 1

def newlines (cs : List Char) : Nat :=
  cs.count '\n'

theorem charLines_nil : charLines [] = [] := rfl

theorem one_le_lineCount (s : String) : 1 ≤ lineCount s := Nat.le_max_right ..

end SourceBlocks.Text
