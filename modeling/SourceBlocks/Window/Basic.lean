import SourceBlocks.Block.Basic
import SourceBlocks.Text.Blank
import SourceBlocks.Text.Lines

/-! # Line windows as blocks

A window is a range of line numbers, from zero, with both ends inside. A window that holds little is
dropped unless it is the only one. -/

namespace SourceBlocks

/-- The lines from `first` to `last`. -/
structure LineWindow where
  first : Nat
  last : Nat
  deriving DecidableEq, Repr

namespace LineWindow

/-- Windows with less than this many characters after trimming are dropped. -/
def minContent : Nat := 50

def content (lines : Array (List Char)) (w : LineWindow) : List Char :=
  List.intercalate ['\n'] (lines.extract w.first (w.last + 1)).toList

theorem content_toArray (lines : List (List Char)) (w : LineWindow) :
    w.content lines.toArray =
      List.intercalate ['\n'] ((lines.drop w.first).take (w.last + 1 - w.first)) := by
  simp [content]

def block? (lines : Array (List Char)) (label : String) (file : SourceText) (only : Bool)
    (w : LineWindow) : Option Block :=
  let content := w.content lines
  let size := Text.trimmedLength content
  if size = 0 || (size < minContent && !only) then none
  else
    let start := w.first + 1
    let stop := w.last + 1
    some {
      type := "chunk"
      identifier := s!"{label}:{start}-{stop}"
      path := file.path
      hash := file.hash
      startLine := start
      endLine := stop
      content := String.ofList content }

def blocks (lines : List (List Char)) (label : String) (file : SourceText)
    (windows : List LineWindow) : List Block :=
  windows.filterMap (block? lines.toArray label file (windows.length == 1))

end LineWindow

end SourceBlocks
