import SourceBlocks.Proofs.Text.LineBreaks
import SourceBlocks.Proofs.Text.Trimming
import SourceBlocks.Proofs.Window.Cover

/-! # Which texts give a block

A window that holds little is kept only if it is the only one. So a text that is not blank is lost
when it is cut into several windows and each of them holds little, and only then. -/

namespace SourceBlocks

namespace LineWindow

variable {lines : List (List Char)} {windows : List LineWindow}

/-- There is one window, or some window has enough left after trimming. -/
def Survives (lines : List (List Char)) (windows : List LineWindow) : Prop :=
  windows.length = 1 ∨
    ∃ w ∈ windows, minContent ≤ Text.trimmedLength (w.content lines.toArray)

theorem line_isInfix_content {w : LineWindow} {i : Nat} (hi : i < lines.length)
    (hfirst : w.first ≤ i) (hlast : i ≤ w.last) : lines[i] <:+: w.content lines.toArray := by
  rw [content_toArray]
  apply Text.isInfix_intercalate
  rw [List.mem_iff_getElem]
  refine ⟨i - w.first, ?_, ?_⟩
  · rw [List.length_take, List.length_drop]
    omega
  · rw [List.getElem_take, List.getElem_drop]
    congr 1
    omega

/-- The window of a line has at least as much left after trimming as the line. -/
theorem Covers.exists_trimmedLength_le (h : Covers lines.length windows) {line : List Char}
    (hline : line ∈ lines) :
    ∃ w ∈ windows, Text.trimmedLength line ≤ Text.trimmedLength (w.content lines.toArray) := by
  obtain ⟨i, hi, rfl⟩ := List.getElem_of_mem hline
  obtain ⟨w, hw, hfirst, hlast⟩ := h.reached i hi
  exact ⟨w, hw, Text.trimmedLength_le (line_isInfix_content hi hfirst hlast)⟩

/-- A text that is not blank has a line that is not blank. -/
theorem exists_line_of_not_blank {text : String} (h : Text.isBlankText text = false) :
    ∃ line ∈ Text.charLines text.toList, 0 < Text.trimmedLength line := by
  obtain ⟨c, hc, hblank⟩ : ∃ c ∈ text.toList, Text.isBlank c = false := by
    simpa [Text.isBlankText] using h
  rcases (Text.linesOf_charLines text.toList).mem_line hc with rfl | rfl | ⟨line, hline, hin⟩
  · exact absurd hblank (by decide)
  · exact absurd hblank (by decide)
  · exact ⟨line, hline, Text.trimmedLength_pos hin hblank⟩

theorem Covers.blocks_ne_nil_iff {file : SourceText}
    (h : Covers (Text.charLines file.text.toList).length windows)
    (hblank : Text.isBlankText file.text = false) (label : String) :
    blocks (Text.charLines file.text.toList) label file windows ≠ [] ↔
      Survives (Text.charLines file.text.toList) windows := by
  rw [LineWindow.blocks_ne_nil_iff]
  constructor
  · rintro ⟨w, hw, -, honly | hlarge⟩
    · exact Or.inl honly
    · exact Or.inr ⟨w, hw, hlarge⟩
  · rintro (honly | ⟨w, hw, hlarge⟩)
    · obtain ⟨line, hline, hpos⟩ := exists_line_of_not_blank hblank
      obtain ⟨w, hw, hle⟩ := h.exists_trimmedLength_le hline
      exact ⟨w, hw, Nat.lt_of_lt_of_le hpos hle, Or.inl honly⟩
    · have hpos : 0 < minContent := by decide
      exact ⟨w, hw, Nat.lt_of_lt_of_le hpos hlarge, Or.inr hlarge⟩

theorem Covers.survives (h : Covers lines.length windows)
    (hline : ∃ line ∈ lines, minContent ≤ Text.trimmedLength line) : Survives lines windows := by
  obtain ⟨line, hline, hlarge⟩ := hline
  obtain ⟨w, hw, hle⟩ := h.exists_trimmedLength_le hline
  exact Or.inr ⟨w, hw, Nat.le_trans hlarge hle⟩

end LineWindow

/-- A text that is not blank gives a block just when it is cut into one window or some window has at
least 50 characters after trimming. So it gives one whenever a line of it is that long. -/
theorem chunks_ne_nil_iff (maxChars size overlap : Nat) (file : SourceText)
    (hblank : Text.isBlankText file.text = false) :
    let lines := Text.charLines file.text.toList
    let byLength : LineChunker := ⟨maxChars⟩
    let byTokens := TokenChunker.ofWindow size overlap
    (byLength.chunk file ≠ [] ↔
        LineWindow.Survives lines (LineChunker.windows byLength.limit lines)) ∧
      (byTokens.chunk file ≠ [] ↔
        LineWindow.Survives lines (byTokens.windows (lines.map TokenEstimate.ofLine))) ∧
      ((∃ line ∈ lines, LineWindow.minContent ≤ Text.trimmedLength line) →
        byLength.chunk file ≠ [] ∧ byTokens.chunk file ≠ []) := by
  intro lines byLength byTokens
  have hlines : LineWindow.Covers lines.length (LineChunker.windows byLength.limit lines) :=
    LineChunker.windows_covers _ _
  have htokens : LineWindow.Covers lines.length
      (byTokens.windows (lines.map TokenEstimate.ofLine)) := by
    have hcovers := TokenChunker.windows_covers byTokens (lines.map TokenEstimate.ofLine)
    rwa [List.length_map] at hcovers
  have hiff : byLength.chunk file ≠ [] ↔
      LineWindow.Survives lines (LineChunker.windows byLength.limit lines) :=
    hlines.blocks_ne_nil_iff hblank LineChunker.label
  have hiff' : byTokens.chunk file ≠ [] ↔
      LineWindow.Survives lines (byTokens.windows (lines.map TokenEstimate.ofLine)) :=
    htokens.blocks_ne_nil_iff hblank TokenChunker.label
  refine ⟨hiff, hiff', fun hlong => ⟨?_, ?_⟩⟩
  · exact hiff.2 (hlines.survives hlong)
  · exact hiff'.2 (htokens.survives hlong)

/-- A line of 50 characters and a short one. -/
def longFile : SourceText :=
  ⟨"a.txt", "h", "0123456789012345678901234567890123456789  456789xx\nend\n"⟩

/-- The short line is dropped as a window of its own, and the long one stays. -/
theorem chunks_ne_nil_longLine :
    Text.isBlankText longFile.text = false ∧ (LineChunker.mk 40).chunk longFile ≠ [] ∧
      (TokenChunker.ofWindow 1 0).chunk longFile ≠ [] := by
  have hblank : Text.isBlankText longFile.text = false := by decide +kernel
  obtain ⟨-, -, hlong⟩ := chunks_ne_nil_iff 40 1 0 longFile hblank
  have hline : ∃ line ∈ Text.charLines longFile.text.toList,
      LineWindow.minContent ≤ Text.trimmedLength line := by
    decide +kernel
  exact ⟨hblank, hlong hline⟩

/-- A short line and an empty one. -/
def shortFile : SourceText := ⟨"a.txt", "h", "pass\n\n"⟩

/-- Cut into two windows, the file is lost: the short line is not the only window, although the other
window is blank. -/
theorem chunks_lose_shortLine :
    Text.isBlankText shortFile.text = false ∧
      LineChunker.windows (LineChunker.mk 4).limit (Text.charLines shortFile.text.toList) =
        [⟨0, 0⟩, ⟨1, 1⟩] ∧
      (LineChunker.mk 4).chunk shortFile = [] ∧
      (TokenChunker.ofWindow 1 0).chunk shortFile = [] := by
  refine ⟨by decide, by decide +kernel, by decide +kernel, by decide +kernel⟩

end SourceBlocks
