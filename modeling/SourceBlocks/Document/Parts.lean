import SourceBlocks.Document.Quoted

/-! # Lists and objects in JSON

Elements stand between brackets and commas, members of an object also have keys. How an element is
read is for the caller to say; the fuel bounds their number. -/

namespace SourceBlocks

namespace Reader

variable {α : Type}

inductive Frame where
  | list
  | object

def Frame.close : Frame → Char
  | list => ']'
  | object => '}'

def colon : Reader Unit := do
  match ← skipSpace with
  | none => throw .truncated
  | some c => if c = ':' then skip else throw .malformed

/-- Whether another element follows in a list. -/
def hasElement (first : Bool) : Reader Bool := do
  match ← skipSpace with
  | none => throw .truncated
  | some ']' => return false
  | some c =>
    if first then return true
    else if c = ',' then
      skip
      match ← skipSpace with
      | none => throw .truncated
      | some ']' => throw .malformed
      | some _ => return true
    else throw .malformed

def close (f : Frame) : Reader Unit := do
  match ← skipSpace with
  | none => throw .truncated
  | some c => if c = f.close then skip else throw .malformed

def elements (item : Reader α) : (fuel : Nat) → (first : Bool) → List α → Reader (List α)
  | 0, _, _ => throw .truncated
  | fuel + 1, first, read => do
    if ← hasElement first then
      let a ← item
      elements item fuel false (a :: read)
    else return read.reverse

/-- The key of another member of an object, if one follows. -/
def key? (first : Bool) : Reader (Option String) := do
  match ← skipSpace with
  | none => throw .truncated
  | some '}' => return none
  | some c =>
    let c ← if first then pure (some c)
      else if c = ',' then do skip; skipSpace
      else throw .malformed
    match c with
    | none => throw .truncated
    | some '"' => return some (← string)
    | some _ => throw .malformed

/-- The value of a key in place of an earlier one. -/
def put (key : String) (a : α) : List (String × α) → List (String × α)
  | [] => [(key, a)]
  | (k, b) :: rest => if k = key then (key, a) :: rest else (k, b) :: put key a rest

/-- The members of an object; of a key that occurs twice the last one counts. -/
def members (value : Reader α) : (fuel : Nat) → (first : Bool) → List (String × α) →
    Reader (List (String × α))
  | 0, _, _ => throw .truncated
  | fuel + 1, first, read => do
    match ← key? first with
    | none => return read
    | some k =>
      colon
      let a ← value
      members value fuel false (put k a read)

end Reader

end SourceBlocks
