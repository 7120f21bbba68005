import SourceBlocks.Document.Number
import SourceBlocks.Text.Slice

/-! # Strings in JSON

A string stands in quotes. A backslash starts an escape, and control characters must be escaped. -/

namespace SourceBlocks

namespace Reader

def hexValue? (c : Char) : Option Nat :=
  if c.isDigit then some (digitValue c)
  else if 'a' ≤ c && c ≤ 'f' then some (c.toNat - 'a'.toNat + 10)
  else if 'A' ≤ c && c ≤ 'F' then some (c.toNat - 'A'.toNat + 10)
  else none

def hexEscape : Reader Nat := do
  let cs ← get
  match (cs.take 4).mapM hexValue? with
  | some [a, b, c, d] =>
    set (cs.drop 4)
    return ((a * 16 + b) * 16 + c) * 16 + d
  | _ => throw (if Text.byteLength (cs.take 4) < 4 then .truncated else .malformed)

/-- A code point from one or two units; a unit of a pair may not stand alone. -/
def unicodeEscape : Reader Char := do
  let n ← hexEscape
  if 0xDC00 ≤ n && n ≤ 0xDFFF then throw .malformed
  if n < 0xD800 || 0xDBFF < n then return Char.ofNat n
  expect '\\'
  expect 'u'
  let m ← hexEscape
  if m < 0xDC00 || 0xDFFF < m then throw .malformed
  return Char.ofNat ((n - 0xD800) * 0x400 + (m - 0xDC00) + 0x10000)

/-- The character of an escape, after its backslash; `unicode` reads one by number. -/
def escape (unicode : Reader Char) : Reader Char := do
  match ← next? with
  | none => throw .truncated
  | some 'b' => return Char.ofNat 8
  | some 'f' => return Char.ofNat 12
  | some 'n' => return '\n'
  | some 'r' => return '\r'
  | some 't' => return '\t'
  | some 'u' => unicode
  | some c => if c == '"' || c == '\\' || c == '/' then return c else throw .malformed

/-- How many characters, and `n` more, stand in front of the quote that ends a string. -/
def extent (escaped : Bool) (n : Nat) : List Char → Nat
  | [] => n
  | c :: cs => if !escaped && c = '"' then n else extent (!escaped && c = '\\') (n + 1) cs

/-- A string after its first quote; it has at most `fuel` characters, the last quote included. -/
def stringTail (unicode : Reader Char) : (fuel : Nat) → List Char → Reader String
  | 0, _ => throw .truncated
  | fuel + 1, read => do
    match ← next? with
    | none => throw .truncated
    | some '"' => return String.ofList read.reverse
    | some '\\' =>
      let c ← escape unicode
      stringTail unicode fuel (c :: read)
    | some c => if c.toNat < 0x20 then throw .malformed else stringTail unicode fuel (c :: read)

def string : Reader String := do
  skip
  stringTail unicodeEscape (extent false 1 (← get)) []

/-- Passes over a string, from its first quote on; units of a pair may stand alone. -/
def passString : Reader Unit := do
  skip
  let _ ← stringTail (do let _ ← hexEscape; return ' ') (extent false 1 (← get)) []

end Reader

end SourceBlocks
