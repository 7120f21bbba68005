import SourceBlocks.Numeric.Ceiling
import SourceBlocks.Numeric.FloatText

/-! # Texts with a place

A message about a document may end with the place it speaks of, as ` at line 3 column 5`. Lines count
from one; a place on line zero stands for no place and is not shown. -/

namespace SourceBlocks

structure DocumentPlace where
  line : Nat
  column : Nat
  deriving DecidableEq, Repr

/-- A text about a place of a document, if it is about one. -/
structure LocatedText where
  text : String
  place : Option DocumentPlace
  deriving DecidableEq, Repr

namespace DocumentPlace

def lineMark : List Char := " at line ".toList

def columnMark : List Char := " column ".toList

/-- A number that fits a word, in digits. -/
def word? (digits : List Char) : Option Nat :=
  let n := Numeric.digitsValue 0 digits
  if digits.isEmpty || Numeric.maxWord < n then none else some n

def ofChars? (cs : List Char) : Option DocumentPlace := do
  let (line, cs) := Numeric.spanDigits cs
  let (column, cs) := Numeric.spanDigits (← columnMark.isPrefixOf? cs)
  if cs.isEmpty then return ⟨← word? line, ← word? column⟩ else none

def render (p : DocumentPlace) : String := s!" at line {p.line} column {p.column}"

end DocumentPlace

namespace LocatedText

/-- What stands before and after the last occurrence of a mark. -/
def splitLast? (mark : List Char) : List Char → Option (List Char × List Char)
  | [] => none
  | c :: cs =>
    match splitLast? mark cs with
    | some (before, after) => some (c :: before, after)
    | none => (mark.isPrefixOf? (c :: cs)).map ([], ·)

/-- Takes the place off the end of a text. -/
def ofText (s : String) : LocatedText :=
  let found := do
    let (before, after) ← splitLast? DocumentPlace.lineMark s.toList
    return (String.ofList before, ← DocumentPlace.ofChars? after)
  match found with
  | none => ⟨s, none⟩
  | some (text, place) => ⟨text, if place.line = 0 then none else some place⟩

def render (t : LocatedText) : String := t.text ++ (t.place.map DocumentPlace.render).getD ""

end LocatedText

end SourceBlocks
