import SourceBlocks.Document.Skip
import SourceBlocks.Document.Value

/-! # Forms

How values of a type are written in JSON. A form reads them from a text, where the first problem
decides the fault, and takes them from a JSON value, where a problem has no place. -/

namespace SourceBlocks

/-- A way to write values of a type. -/
structure Form (α : Type) where
  read : Reader α
  ofValue? : DocumentValue → Option α

namespace Form

open Reader

variable {α β : Type}

/-- The form of what a function makes of values. -/
def map (f : α → β) (form : Form α) : Form β where
  read := return f (← form.read)
  ofValue? v := (form.ofValue? v).map f

/-- Ends at a value of another type; a scalar must at least be well formed. -/
def mismatch : Reader α := do
  match ← peek? with
  | some 'n' => skip; keyword ['u', 'l', 'l']; throw .mismatched
  | some 't' => skip; keyword ['r', 'u', 'e']; throw .mismatched
  | some 'f' => skip; keyword ['a', 'l', 's', 'e']; throw .mismatched
  | some '"' => let _ ← string; throw .mismatched
  | some '[' | some '\x7b' => throw .mismatched
  | some '-' => skip; let _ ← number true; throw .mismatched
  | some c =>
    if c.isDigit then
      let _ ← number false
      throw .mismatched
    else throw .malformed
  | none => throw .malformed

def null : Form Unit where
  read := do
    match ← valueStart with
    | 'n' => skip; keyword ['u', 'l', 'l']
    | _ => mismatch
  ofValue?
    | .null => some ()
    | _ => none

def bool : Form Bool where
  read := do
    match ← valueStart with
    | 't' => skip; keyword ['r', 'u', 'e']; return true
    | 'f' => skip; keyword ['a', 'l', 's', 'e']; return false
    | _ => mismatch
  ofValue?
    | .bool b => some b
    | _ => none

def number : Form DocumentNumber where
  read := do
    let c ← valueStart
    if c = '-' then
      skip
      Reader.number true
    else if c.isDigit then Reader.number false
    else mismatch
  ofValue?
    | .number n => some n
    | _ => none

/-- A natural number that fits a word. -/
def natural : Form Nat where
  read := do
    match ← number.read with
    | .natural n => return n
    | _ => throw .mismatched
  ofValue?
    | .number (.natural n) => some n
    | _ => none

def float : Form Float := number.map DocumentNumber.toFloat

def text : Form String where
  read := do
    match ← valueStart with
    | '"' => string
    | _ => mismatch
  ofValue?
    | .text s => some s
    | _ => none

def optional (form : Form α) : Form (Option α) where
  read := do
    match ← skipSpace with
    | some 'n' => skip; keyword ['u', 'l', 'l']; return none
    | _ => return some (← form.read)
  ofValue?
    | .null => some none
    | v => (form.ofValue? v).map some

def listOf (item : Form α) : Form (List α) where
  read := do
    match ← valueStart with
    | '[' =>
      skip
      let items ← elements item.read ((← get).length + 1) true []
      close .list
      return items
    | _ => mismatch
  ofValue?
    | .list items => items.mapM item.ofValue?
    | _ => none

def mapOf (form : Form α) : Form (List (String × α)) where
  read := do
    match ← valueStart with
    | '\x7b' =>
      skip
      let found ← members form.read ((← get).length + 1) true []
      close .object
      return found
    | _ => mismatch
  ofValue?
    | .object found => found.mapM fun (k, v) => (form.ofValue? v).map (k, ·)
    | _ => none

/-- A field of a record: its key, and how its value changes the record. -/
structure Field (α : Type) where
  key : String
  change : Form (α → α)

def field (key : String) (form : Form β) (set : β → α → α) : Field α := ⟨key, form.map set⟩

/-- The members of a record; a key of no field is passed over, one that occurs twice is refused. -/
def fieldsByKey (fields : List (Field α)) : (fuel : Nat) → (first : Bool) → List String → α →
    Reader α
  | 0, _, _, _ => throw .truncated
  | fuel + 1, first, seen, a => do
    match ← key? first with
    | none => return a
    | some k =>
      match fields.find? (·.key == k) with
      | none =>
        colon
        passValue
        fieldsByKey fields fuel false seen a
      | some f =>
        if seen.contains k then throw .mismatched
        colon
        let change ← f.change.read
        fieldsByKey fields fuel false (k :: seen) (change a)

/-- The fields of a record in order; those at the end may be missing. -/
def fieldsInOrder (first : Bool) (a : α) : List (Field α) → Reader α
  | [] => return a
  | f :: fields => do
    if ← hasElement first then
      let change ← f.change.read
      fieldsInOrder false (change a) fields
    else return a

def Field.setTo? (f : Field α) (a : α) (v : DocumentValue) : Option α :=
  (f.change.ofValue? v).map fun change => change a

/-- The record with the fields of an object's members; other members are ignored. -/
def recordOfMembers? (fields : List (Field α)) (a : α) : List (String × DocumentValue) → Option α
  | [] => some a
  | (k, v) :: rest =>
    match fields.find? (·.key == k) with
    | none => recordOfMembers? fields a rest
    | some f => (f.setTo? a v).bind fun a => recordOfMembers? fields a rest

/-- The record with its first fields changed to the values of a list, which has no more of them. -/
def recordOfItems? (a : α) : List (Field α) → List DocumentValue → Option α
  | _, [] => some a
  | [], _ :: _ => none
  | f :: fields, v :: rest => (f.setTo? a v).bind fun a => recordOfItems? a fields rest

/-- A record as an object or as a list of its fields, over default values. -/
def record (fields : List (Field α)) (default : α) : Form α where
  read := do
    match ← valueStart with
    | '[' =>
      skip
      let a ← fieldsInOrder true default fields
      close .list
      return a
    | '\x7b' =>
      skip
      let a ← fieldsByKey fields ((← get).length + 1) true [] default
      close .object
      return a
    | _ => mismatch
  ofValue?
    | .list items => recordOfItems? default fields items
    | .object found => recordOfMembers? fields default found
    | _ => none

def option (options : List (String × α)) (name : String) : Reader α :=
  match options.lookup name with
  | some a => return a
  | none => throw .mismatched

/-- One of several names, also as the only key of an object whose value is `null`. -/
def choice (options : List (String × α)) : Form α where
  read := do
    match ← skipSpace with
    | none => throw .truncated
    | some '"' => option options (← string)
    | some '\x7b' =>
      skip
      match ← skipSpace with
      | none => throw .truncated
      | some '"' =>
        let a ← option options (← string)
        colon
        null.read
        close .object
        return a
      | some _ => throw .malformed
    | some _ => throw .malformed
  ofValue?
    | .text name => options.lookup name
    | .object [(name, .null)] => options.lookup name
    | _ => none

end Form

end SourceBlocks
