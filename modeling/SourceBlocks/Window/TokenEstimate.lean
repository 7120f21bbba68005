import SourceBlocks.Numeric.Ceiling
import SourceBlocks.Text.Blank

/-! # Token estimates

How many tokens a text may cost, by its characters, by its words, and by a mean of both. -/

namespace SourceBlocks

namespace TokenEstimate

/-- Characters for one token of text in Latin script. -/
def charsPerToken : Float := 4.0

def wideCharsPerToken : Float := 2.0

def tokensPerWord : Float := 1.3

def charWeight : Float := 0.6

def wordWeight : Float := 0.4

/-- Chinese ideographs, Japanese kana and Korean syllables. -/
def isWide (c : Char) : Bool :=
  let n := c.toNat
  (0x4E00 ≤ n && n ≤ 0x9FFF) || (0x3400 ≤ n && n ≤ 0x4DBF) || (0x3040 ≤ n && n ≤ 0x30FF) ||
    (0xAC00 ≤ n && n ≤ 0xD7AF)

def byChars (cs : List Char) : Nat :=
  let perToken := if cs.any isWide then wideCharsPerToken else charsPerToken
  Numeric.ceilNat (Float.ofNat cs.length / perToken)

def byWords (cs : List Char) : Nat :=
  Numeric.ceilNat (Float.ofNat (Text.wordCount cs) * tokensPerWord)

/-- The weighted mean of both estimates. -/
def weighted (cs : List Char) : Nat :=
  if cs.isEmpty then 0
  else Numeric.ceilNat (Float.ofNat (byChars cs) * charWeight + Float.ofNat (byWords cs) * wordWeight)

/-- The estimate of a line: the weighted mean, and at least one unless the line is empty. -/
def ofLine (cs : List Char) : Nat :=
  let estimate := weighted cs
  if estimate = 0 && !cs.isEmpty then 1 else estimate

end TokenEstimate

end SourceBlocks
