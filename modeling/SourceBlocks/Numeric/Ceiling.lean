/-! # Ceilings of binary fractions

A finite double is a whole number of units times a power of two; its ceiling is exact in the natural
numbers. -/

namespace SourceBlocks.Numeric

def maxWord : Nat := Nat.pow 2 64 - 1

/-- The least natural number not below `x`, at most `maxWord`; zero for negative numbers and for
what is not a number. -/
def ceilNat (x : Float) : Nat :=
  let bits := x.toBits.toNat
  let exponent := bits / Nat.pow 2 52 % 2048
  let fraction := bits % Nat.pow 2 52
  if exponent = 2047 then
    if fraction = 0 && bits < Nat.pow 2 63 then maxWord else 0
  else if Nat.pow 2 63 ≤ bits then 0
  else
    let significand := if exponent = 0 then fraction else Nat.pow 2 52 + fraction
    let scale := max exponent 1
    if 1075 ≤ scale then min (significand * Nat.pow 2 (scale - 1075)) maxWord
    else
      let unit := Nat.pow 2 (1075 - scale)
      (significand + unit - 1) / unit

end SourceBlocks.Numeric
