import SourceBlocks.Document.Parts

/-! # Passing over JSON values

A value of no interest must be JSON, but its numbers may be of any size. Open lists and objects are
kept in a list of frames. -/

namespace SourceBlocks

namespace Reader

def passExponent : Reader Unit := do
  skip
  let sign ← peek?
  if sign = some '+' || sign = some '-' then skip
  if (← takeDigits).isEmpty then throw .malformed

def passNumber : Reader Unit := do
  let digits ← takeDigits
  if digits.isEmpty || (digits.head? = some '0' && digits.length != 1) then throw .malformed
  if (← peek?) = some '.' then
    skip
    if (← takeDigits).isEmpty then throw .malformed
  let c ← peek?
  if c = some 'e' || c = some 'E' then passExponent

/-- After a value or an opening bracket: closes what can be closed, and gives the frames in which
another value follows. -/
def closeFrames : (comma : Bool) → List Frame → Reader (List Frame)
  | _, [] => return []
  | comma, f :: fs => do
    match ← skipSpace with
    | none => throw .truncated
    | some c =>
      if c = ',' && comma then
        skip
        return f :: fs
      else if c = f.close then
        skip
        closeFrames true fs
      else if comma then throw .malformed
      else return f :: fs

def passKey : List Frame → Reader Unit
  | .object :: _ => do
    match ← skipSpace with
    | none => throw .truncated
    | some c => if c = '"' then passString else throw .malformed
    colon
  | _ => return ()

/-- Passes over a value that has no parts, or opens one that has. -/
def passScalar : Reader (Option Frame) := do
  match ← valueStart with
  | 'n' => skip; keyword ['u', 'l', 'l']; return none
  | 't' => skip; keyword ['r', 'u', 'e']; return none
  | 'f' => skip; keyword ['a', 'l', 's', 'e']; return none
  | '"' => passString; return none
  | '[' => skip; return some .list
  | '\x7b' => skip; return some .object
  | '-' => skip; passNumber; return none
  | c => if c.isDigit then passNumber; return none else throw .malformed

/-- Passes over values until no frame is open; each takes a character of the text. -/
def passValues : (fuel : Nat) → List Frame → Reader Unit
  | 0, _ => throw .truncated
  | fuel + 1, frames => do
    let frames ← match ← passScalar with
      | none => closeFrames true frames
      | some f => closeFrames false (f :: frames)
    if frames.isEmpty then return ()
    passKey frames
    passValues fuel frames

def passValue : Reader Unit := do
  passValues ((← get).length + 1) []

end Reader

end SourceBlocks
