import SourceBlocks.Document.Parts

/-! # JSON values

A document as a value of its own, for those who decide later what it should mean. -/

namespace SourceBlocks

/-- A JSON value; the keys of an object are distinct. -/
inductive DocumentValue where
  | null
  | bool (b : Bool)
  | number (n : DocumentNumber)
  | text (s : String)
  | list (items : List DocumentValue)
  | object (members : List (String × DocumentValue))

namespace DocumentValue

def member? (key : String) : DocumentValue → Option DocumentValue
  | object members => members.lookup key
  | _ => none

end DocumentValue

namespace Reader

/-- A value; the fuel bounds how deep its parts lie and how many stand in one list or object. -/
def valueWithin : (fuel : Nat) → Reader DocumentValue
  | 0 => throw .truncated
  | fuel + 1 => do
    match ← valueStart with
    | 'n' => skip; keyword ['u', 'l', 'l']; return .null
    | 't' => skip; keyword ['r', 'u', 'e']; return .bool true
    | 'f' => skip; keyword ['a', 'l', 's', 'e']; return .bool false
    | '"' => return .text (← string)
    | '[' =>
      skip
      let items ← elements (valueWithin fuel) fuel true []
      close .list
      return .list items
    | '\x7b' =>
      skip
      let found ← members (valueWithin fuel) fuel true []
      close .object
      return .object found
    | '-' => skip; return .number (← number true)
    | c => if c.isDigit then return .number (← number false) else throw .malformed

def value : Reader DocumentValue := do
  valueWithin ((← get).length + 1)

end Reader

end SourceBlocks
