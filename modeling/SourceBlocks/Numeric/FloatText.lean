/-! # Reading decimal numbers

A number with an optional sign, a point anywhere among its digits and an optional exponent, or an
infinity or what is not a number by name, in any letter case. -/

namespace SourceBlocks.Numeric

/-- The value of a list of digits that follows the value `n`. -/
def digitsValue (n : Nat) (ds : List Char) : Nat :=
  ds.foldl (fun n d => n * 10 + (d.toNat - '0'.toNat)) n

def spanDigits (cs : List Char) : List Char × List Char :=
  (cs.takeWhile Char.isDigit, cs.dropWhile Char.isDigit)

/-- The double nearest to `m * 10 ^ e`. Outside the range of doubles the exact value does not
matter. -/
def nearest (m : Nat) (e : Int) : Float :=
  let digits : Int := (Nat.toDigits 10 m).length
  if m = 0 then 0.0
  else if 400 < digits + e then 1.0 / 0.0
  else if digits + e < -400 then 0.0
  else Float.ofScientific m (decide (e < 0)) e.natAbs

/-- An optional sign: whether the number is negative, and what follows. -/
def takeSign : List Char → Bool × List Char
  | '-' :: cs => (true, cs)
  | '+' :: cs => (false, cs)
  | cs => (false, cs)

def exponent? (cs : List Char) : Option Int :=
  let (negative, cs) := takeSign cs
  if cs.isEmpty || !cs.all Char.isDigit then none
  else
    let n : Int := digitsValue 0 cs
    some (if negative then -n else n)

def unsigned? (cs : List Char) : Option Float :=
  let name := String.ofList (cs.map Char.toLower)
  if name = "inf" || name = "infinity" then some (1.0 / 0.0)
  else if name = "nan" then some (0.0 / 0.0)
  else
    let (whole, cs) := spanDigits cs
    let (part, cs) := match cs with
      | '.' :: cs => spanDigits cs
      | _ => ([], cs)
    if whole.isEmpty && part.isEmpty then none
    else
      let m := digitsValue 0 (whole ++ part)
      let scale : Int := part.length
      match cs with
      | [] => some (nearest m (-scale))
      | c :: cs =>
        if c == 'e' || c == 'E' then (exponent? cs).map fun e => nearest m (e - scale) else none

/-- The number that a text stands for. -/
def float? (s : String) : Option Float :=
  let (negative, cs) := takeSign s.toList
  (unsigned? cs).map fun x => if negative then -x else x

end SourceBlocks.Numeric
