import SourceBlocks.Block.Basic
import SourceBlocks.Capture.Basic
import SourceBlocks.Settings.Basic
import SourceBlocks.Text.Blank
import SourceBlocks.Text.Lines
import SourceBlocks.Text.Slice
import SourceBlocks.Tree.Name

/-! # Blocks of captures

A capture becomes the block of its body's text and lines. A body that does not fit the text stands
for the whole text. Bodies with little text give no block. -/

namespace SourceBlocks

def maxIdentifier : Nat := 120

def isQuote (c : Char) : Bool := c == '"' || c.toNat == 0x27 || c.toNat == 0x60

/-- The first line of a name without white space and quotes around it, cut at the longest length;
`none` when nothing is left. -/
def cleanIdentifier (cs : List Char) : Option (List Char) :=
  let line := (Text.charLines cs).head?.getD []
  let name := Text.stripEnds Text.isBlank (Text.stripEnds isQuote (Text.stripEnds Text.isBlank line))
  if name.isEmpty then none else some (name.take maxIdentifier)

/-- The last row of a node; one that stops at the start of a row ends on the row before. -/
def Node.lastRow (n : Node) : Nat :=
  if n.stop.column = 0 && n.start.row < n.stop.row then n.stop.row - 1 else n.stop.row

/-- A text with the first and last of its lines, counted from one. -/
structure Extent where
  content : List Char
  startLine : Nat
  endLine : Nat

def Extent.whole (text : String) : Extent := ⟨text.toList, 1, Text.lineCount text⟩

/-- What a node covers of a text, or the whole text where the node does not fit it. -/
def Node.extent (n : Node) (text : String) : Extent :=
  match Text.sliceChars? text.toList n.start.byte n.stop.byte with
  | some cs =>
    if n.start.row ≤ n.lastRow then ⟨cs, n.start.row + 1, n.lastRow + 1⟩ else .whole text
  | none => .whole text

/-- The identifier that a capture's name, captured or declared, gives in a text. -/
def Capture.identifier? (c : Capture) (language text : String) : Option String :=
  ((c.name.or (c.body.declaredName? language)).bind fun n =>
    (Text.sliceChars? text.toList n.start.byte n.stop.byte).bind cleanIdentifier).map String.ofList

def Capture.block? (s : Settings) (language : String) (file : SourceText) (c : Capture) :
    Option Block :=
  let extent := c.body.extent file.text
  let size := Text.trimmedLength extent.content
  if size = 0 || size < s.minBlockChars then none
  else
    let line := extent.startLine
    some {
      type := c.type
      identifier := (c.identifier? language file.text).getD (s!"{c.type}:{line}")
      path := file.path
      hash := file.hash
      startLine := line
      endLine := extent.endLine
      content := String.ofList extent.content }

def captureBlocks (s : Settings) (language : String) (file : SourceText)
    (captures : List Capture) : List Block :=
  captures.filterMap (Capture.block? s language file)

/-- The whole file as one block, unless it holds too little. -/
def wholeFileBlock? (s : Settings) (file : SourceText) : Option Block :=
  if Text.trimmedLength file.text.toList < max s.minBlockChars 1 then none
  else some {
    type := "file"
    identifier := (Text.fileName? file.path).getD file.path
    path := file.path
    hash := file.hash
    startLine := 1
    endLine := Text.lineCount file.text
    content := file.text }

end SourceBlocks
