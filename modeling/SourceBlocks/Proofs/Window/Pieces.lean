import SourceBlocks.Proofs.Text.LineBreaks
import SourceBlocks.Proofs.Window.Cover

/-! # Windows as pieces of the text

A block of a window is the piece of the text on its lines, less the carriage returns before the
newlines of that piece. It is the piece itself only where no line but its last ends in a carriage
return and a newline. -/

namespace SourceBlocks

/-- The block has the piece of the text that stands on its lines, without carriage returns before
newlines. -/
structure Block.TakenFrom (text : String) (b : Block) : Prop where
  lines : 1 ≤ b.startLine ∧ b.startLine ≤ b.endLine ∧ b.endLine ≤ Text.lineCount text
  piece : ∃ piece, Text.OnLines text.toList (b.startLine - 1) (b.endLine - 1) piece ∧
    b.content.toList = Text.dropReturns piece ∧
    (b.content.toList = piece ↔ ¬ ['\r', '\n'] <:+: piece)
  literal : ¬ ['\r', '\n'] <:+: text.toList → b.content.toList <:+: text.toList

namespace LineWindow

variable {file : SourceText} {windows : List LineWindow}

theorem content_eq_dropReturns {text : String} {w : LineWindow} (hle : w.first ≤ w.last)
    (hin : w.last < (Text.charLines text.toList).length) :
    ∃ piece, Text.OnLines text.toList w.first w.last piece ∧
      w.content (Text.charLines text.toList).toArray = Text.dropReturns piece := by
  obtain ⟨piece, hpiece, hjoin⟩ := (Text.linesOf_charLines text.toList).exists_piece hle hin
  exact ⟨piece, hpiece, (content_toArray _ w).trans hjoin⟩

theorem Covers.taken (h : Covers (Text.charLines file.text.toList).length windows)
    {label : String} {b : Block}
    (hb : b ∈ blocks (Text.charLines file.text.toList) label file windows) :
    b.TakenFrom file.text := by
  obtain ⟨w, hw, hstart, hend, hcontent⟩ := exists_of_mem_blocks hb
  obtain ⟨hle, hin⟩ := h.inside w hw
  obtain ⟨piece, hpiece, hjoin⟩ := content_eq_dropReturns hle hin
  rw [← hcontent] at hjoin
  have hsame : b.content.toList = piece ↔ ¬ ['\r', '\n'] <:+: piece := by
    rw [hjoin]
    exact Text.dropReturns_eq_self_iff piece
  constructor
  · have hcount : (Text.charLines file.text.toList).length ≤ Text.lineCount file.text :=
      Nat.le_max_left _ _
    omega
  · refine ⟨piece, ?_, hjoin, hsame⟩
    rwa [hstart, hend, Nat.add_sub_cancel, Nat.add_sub_cancel]
  · intro hnone
    have hliteral := hsame.2 fun hpair => hnone (hpair.trans hpiece.isInfix)
    exact hliteral ▸ hpiece.isInfix

end LineWindow

/-- Whatever the limit, the window and the overlap, a block has what stands on its lines, and it is a
literal piece of the text there just when no carriage return stands before a newline of the piece. A
text without carriage returns before newlines gives literal pieces only. -/
theorem chunks_taken (maxChars size overlap : Nat) (file : SourceText) :
    (∀ b ∈ (LineChunker.mk maxChars).chunk file, b.TakenFrom file.text) ∧
      ∀ b ∈ (TokenChunker.ofWindow size overlap).chunk file, b.TakenFrom file.text := by
  refine ⟨fun b hb => ?_, fun b hb => ?_⟩
  · exact (LineChunker.windows_covers _ _).taken hb
  · have hcovers := TokenChunker.windows_covers (.ofWindow size overlap)
      ((Text.charLines file.text.toList).map TokenEstimate.ofLine)
    rw [List.length_map] at hcovers
    exact hcovers.taken hb

/-- Lines with carriage returns that are part of no ending. -/
def strayReturnFile : SourceText := ⟨"a.txt", "h", "a\rb\n\rc\r"⟩

/-- The carriage returns stay, and the block is the text. -/
theorem chunks_taken_strayReturn :
    ¬ ['\r', '\n'] <:+: strayReturnFile.text.toList ∧
      ∃ b ∈ (LineChunker.mk 1000).chunk strayReturnFile,
        b.content.toList <:+: strayReturnFile.text.toList ∧ b.content = "a\rb\n\rc\r" := by
  have hnone : ¬ ['\r', '\n'] <:+: strayReturnFile.text.toList := by decide
  refine ⟨hnone, ?_⟩
  obtain ⟨b, hb, hcontent⟩ : ∃ b ∈ (LineChunker.mk 1000).chunk strayReturnFile,
      b.content = "a\rb\n\rc\r" := by
    decide +kernel
  exact ⟨b, hb, ((chunks_taken 1000 1000 200 strayReturnFile).1 b hb).literal hnone, hcontent⟩

/-- Two lines with a carriage return between them. -/
def returnFile : SourceText := ⟨"a.txt", "h", "a\r\nb"⟩

/-- Its only block is not to be found in the text. -/
theorem chunks_taken_not_literal :
    ((LineChunker.mk 1000).chunk returnFile).map Block.content = ["a\nb"] ∧
      ((TokenChunker.ofWindow 1000 200).chunk returnFile).map Block.content = ["a\nb"] ∧
      ¬ "a\nb".toList <:+: returnFile.text.toList := by
  refine ⟨by decide +kernel, by decide +kernel, by decide⟩

end SourceBlocks
