import SourceBlocks.Numeric.Ceiling
import SourceBlocks.Window.Basic

/-! # Windows by length

Lines are collected until a window reaches its limit, which is the wanted length and some tolerance. A
line costs its characters and its newline. -/

namespace SourceBlocks

/-- Cuts a text into windows of about `maxChars` characters. -/
structure LineChunker where
  maxChars : Nat
  deriving DecidableEq, Repr

namespace LineChunker

/-- How far a window may run past the wanted length. -/
def tolerance : Float := 1.15

def limit (c : LineChunker) : Nat :=
  Numeric.ceilNat (Float.ofNat c.maxChars * tolerance)

def cost (line : List Char) : Nat := line.length + 1

/-- The windows of the lines that follow; the open window starts at `start`, the next line is `i`,
and the lines between cost `length`. -/
def windowsFrom (limit : Nat) (start i length : Nat) : List (List Char) → List LineWindow
  | [] => []
  | line :: rest =>
    let length := length + cost line
    if limit ≤ length || rest.isEmpty then ⟨start, i⟩ :: windowsFrom limit (i + 1) (i + 1) 0 rest
    else windowsFrom limit start (i + 1) length rest

def windows (limit : Nat) (lines : List (List Char)) : List LineWindow :=
  windowsFrom limit 0 0 0 lines

def label : String := "lines"

def chunk (c : LineChunker) (file : SourceText) : List Block :=
  let lines := Text.charLines file.text.toList
  LineWindow.blocks lines label file (windows c.limit lines)

end LineChunker

end SourceBlocks
