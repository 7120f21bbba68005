import SourceBlocks.Document.Reader
import SourceBlocks.Numeric.Ceiling

/-! # Numbers in JSON

Whole numbers that fit a word are exact. All others are doubles: their first digits that fit a word,
multiplied or divided by powers of ten. -/

namespace SourceBlocks

/-- A number as written: whole, negative and whole, or with a fraction or an exponent. -/
inductive DocumentNumber where
  | natural (n : Nat)
  | negative (n : Nat)
  | fraction (x : Float)

def DocumentNumber.toFloat : DocumentNumber → Float
  | natural n => Float.ofNat n
  | negative n => -(Float.ofNat n)
  | fraction x => x

namespace Reader

def digitValue (c : Char) : Nat := c.toNat - '0'.toNat

/-- Appends digits to a number as long as it fits a word; the number, and how many digits it took. -/
def absorb (m : Nat) : List Char → Nat × Nat
  | [] => (m, 0)
  | d :: ds =>
    let next := m * 10 + digitValue d
    if Numeric.maxWord < next then (m, 0)
    else
      let (m, taken) := absorb next ds
      (m, taken + 1)

def powerOfTen (k : Nat) : Float := Float.ofScientific 1 false k

/-- The largest power of ten that is divided by at once. -/
def maxPower : Nat := 308

def scaleDown (x : Float) (k : Nat) : Float :=
  if k ≤ maxPower then x / powerOfTen k
  else if x == 0.0 then x
  else scaleDown (x / powerOfTen maxPower) (k - maxPower)
termination_by k
decreasing_by simp only [maxPower] at *; omega

/-- The number `m * 10 ^ e`, unless it is too large. -/
def scale? (m : Nat) (e : Int) : Option Float :=
  let x := Float.ofNat m
  if e < 0 then some (scaleDown x e.natAbs)
  else if e.natAbs ≤ maxPower then
    let y := x * powerOfTen e.natAbs
    if y.isInf then none else some y
  else if x == 0.0 then some x
  else none

/-- A number with a fraction or an exponent, unless it is too large. -/
def fraction (negative : Bool) (m : Nat) (e : Int) : Reader DocumentNumber :=
  match scale? m e with
  | some x => return .fraction (if negative then -x else x)
  | none => throw .malformed

def maxExponent : Nat := Nat.pow 2 31 - 1

def exponent (negative : Bool) (m : Nat) (e : Int) : Reader DocumentNumber := do
  skip
  let sign ← peek?
  if sign = some '+' || sign = some '-' then skip
  if (← peek?).isNone then throw .truncated
  let digits ← takeDigits
  if digits.isEmpty then throw .malformed
  let k := digits.foldl (fun n d => n * 10 + digitValue d) 0
  let down := sign = some '-'
  if maxExponent < k then
    if m != 0 && !down then throw .malformed
    return .fraction (if negative then -0.0 else 0.0)
  fraction negative m (if down then e - k else e + k)

def maybeExponent (negative : Bool) (m : Nat) (e : Int) : Reader DocumentNumber := do
  let c ← peek?
  if c = some 'e' || c = some 'E' then exponent negative m e else fraction negative m e

def decimals (negative : Bool) (m : Nat) (e : Int) : Reader DocumentNumber := do
  skip
  let digits ← takeDigits
  if digits.isEmpty then throw (if (← peek?).isNone then .truncated else .malformed)
  let (m, taken) := absorb m digits
  maybeExponent negative m (e - taken)

/-- A number without its sign. Digits that do not fit a word only count for the scale. -/
def number (negative : Bool) : Reader DocumentNumber := do
  if (← peek?).isNone then throw .truncated
  let digits ← takeDigits
  if digits.isEmpty then throw .malformed
  if digits.head? = some '0' && digits.length != 1 then throw .malformed
  let (m, taken) := absorb 0 digits
  let dropped := digits.length - taken
  match ← peek? with
  | some '.' => decimals negative m dropped
  | some 'e' | some 'E' => exponent negative m dropped
  | _ =>
    if dropped != 0 then fraction negative m dropped
    else if !negative then return .natural m
    else if m = 0 || Nat.pow 2 63 < m then return .fraction (-(Float.ofNat m))
    else return .negative m

end Reader

end SourceBlocks
