/-! # Reading bytes as text

A decoder that takes one byte at a time. An ill-formed stretch counts once for each maximal part of
it that could have started a character. -/

namespace SourceBlocks.Text

/-- A character begun: its bits so far and the ranges its next bytes must lie in. -/
structure Unfinished where
  code : Nat
  ranges : List (Nat × Nat)

/-- Characters decoded so far, last first, with `none` for each ill-formed stretch. -/
structure Decoding where
  output : List (Option Char)
  pending : Option Unfinished

def Decoding.start (out : List (Option Char)) (b : Nat) : Decoding :=
  let tail := (0x80, 0xBF)
  if b < 0x80 then ⟨some (Char.ofNat b) :: out, none⟩
  else if 0xC2 ≤ b && b ≤ 0xDF then ⟨out, some ⟨b % 0x20, [tail]⟩⟩
  else if b == 0xE0 then ⟨out, some ⟨b % 0x10, [(0xA0, 0xBF), tail]⟩⟩
  else if b == 0xED then ⟨out, some ⟨b % 0x10, [(0x80, 0x9F), tail]⟩⟩
  else if 0xE1 ≤ b && b ≤ 0xEF then ⟨out, some ⟨b % 0x10, [tail, tail]⟩⟩
  else if b == 0xF0 then ⟨out, some ⟨b % 0x08, [(0x90, 0xBF), tail, tail]⟩⟩
  else if 0xF1 ≤ b && b ≤ 0xF3 then ⟨out, some ⟨b % 0x08, [tail, tail, tail]⟩⟩
  else if b == 0xF4 then ⟨out, some ⟨b % 0x08, [(0x80, 0x8F), tail, tail]⟩⟩
  else ⟨none :: out, none⟩

def Decoding.step (d : Decoding) (byte : UInt8) : Decoding :=
  let b := byte.toNat
  match d.pending with
  | none => .start d.output b
  | some ⟨_, []⟩ => .start d.output b
  | some ⟨code, (lo, hi) :: more⟩ =>
    if lo ≤ b && b ≤ hi then
      let code := code * 0x40 + b % 0x40
      if more.isEmpty then ⟨some (Char.ofNat code) :: d.output, none⟩
      else ⟨d.output, some ⟨code, more⟩⟩
    else .start (none :: d.output) b

/-- All bytes read, in order, with `none` for each ill-formed stretch. -/
def decode (bytes : List UInt8) : List (Option Char) :=
  let d := bytes.foldl Decoding.step ⟨[], none⟩
  (if d.pending.isSome then none :: d.output else d.output).reverse

/-- The text of the bytes, with U+FFFD for each ill-formed stretch. -/
def decodeLossy (bytes : List UInt8) : String :=
  String.ofList ((decode bytes).map (·.getD (Char.ofNat 0xFFFD)))

/-- The text of the bytes when all of them are well formed. -/
def decode? (bytes : List UInt8) : Option String :=
  let chars := decode bytes
  if chars.all Option.isSome then some (String.ofList (chars.filterMap id)) else none

def encode (s : String) : List UInt8 :=
  s.toUTF8.toList

end SourceBlocks.Text
