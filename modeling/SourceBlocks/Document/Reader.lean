/-! # Reading JSON

A reader takes what it wants from the front of a text and stops at the first problem in reading
order. A problem is a text that ends too early, a value of another type, or anything else that is no
JSON. -/

namespace SourceBlocks

/-- Why a document cannot be read. -/
inductive ReadFault where
  /-- The text is not JSON. -/
  | malformed
  /-- A value has the wrong type. -/
  | mismatched
  /-- The text ends too early. -/
  | truncated
  deriving DecidableEq, Repr

/-- A reader takes characters from the front of a text. -/
abbrev Reader := StateT (List Char) (Except ReadFault)

namespace Reader

def peek? : Reader (Option Char) := return (← get).head?

def skip : Reader Unit := modify List.tail

def next? : Reader (Option Char) := do
  let c ← peek?
  skip
  return c

def isSpace (c : Char) : Bool := c == ' ' || c == '\n' || c == '\t' || c == '\r'

/-- The next character after white space. -/
def skipSpace : Reader (Option Char) := do
  modify (·.dropWhile isSpace)
  peek?

def valueStart : Reader Char := do
  match ← skipSpace with
  | some c => return c
  | none => throw .truncated

/-- The rest of `null`, `true` or `false`. -/
def keyword : List Char → Reader Unit
  | [] => return ()
  | c :: cs => do
    match ← next? with
    | none => throw .truncated
    | some d => if c = d then keyword cs else throw .malformed

def takeDigits : Reader (List Char) := do
  let digits := (← get).takeWhile Char.isDigit
  modify (·.dropWhile Char.isDigit)
  return digits

def expect (c : Char) : Reader Unit := do
  match ← next? with
  | none => throw .truncated
  | some d => if c = d then return () else throw .malformed

/-- A whole text as one value. -/
def readAll {α : Type} (value : Reader α) (text : String) : Except ReadFault α := do
  let (a, rest) ← value text.toList
  if rest.all isSpace then return a else throw .malformed

end Reader

end SourceBlocks
