import SourceBlocks.Proofs.Window.LineCuts
import SourceBlocks.Proofs.Window.TokenCuts

/-! # Windows over all lines

Both ways of cutting find windows that hold lines of the text only and leave none out. Which of them
become blocks depends on what they hold after trimming. -/

namespace SourceBlocks

/-- Windows over `count` lines hold nothing but these lines, and each line is in some window. -/
structure LineWindow.Covers (count : Nat) (windows : List LineWindow) : Prop where
  inside : ∀ w ∈ windows, w.first ≤ w.last ∧ w.last < count
  reached : ∀ line < count, ∃ w ∈ windows, w.first ≤ line ∧ line ≤ w.last

namespace LineChunker

theorem windows_covers (limit : Nat) (lines : List (List Char)) :
    LineWindow.Covers lines.length (windows limit lines) := by
  have hcuts := cuts_windows limit lines
  have hlength : (lines.map cost).length = lines.length := List.length_map cost
  constructor
  · intro w hw
    rw [← hlength]
    exact hcuts.inside w hw
  · intro line hline
    have hmem : line ∈ (windows limit lines).flatMap LineWindow.lineNumbers := by
      rw [hcuts.partition, hlength, List.mem_range'_1]
      omega
    obtain ⟨w, hw, hin⟩ := List.mem_flatMap.1 hmem
    exact ⟨w, hw, LineWindow.mem_lineNumbers.1 hin⟩

end LineChunker

namespace TokenChunker

theorem windowsFrom_reached (c : TokenChunker) (counts : List Nat) (start : Nat) :
    ∀ line, start ≤ line → line < counts.length →
      ∃ w ∈ windowsFrom counts.toArray c start, w.first ≤ line ∧ line ≤ w.last := by
  fun_induction windowsFrom counts.toArray c start with
  | case1 start hin last ih =>
    intro line hstart hline
    by_cases hlast : line ≤ last
    · exact ⟨⟨start, last⟩, List.mem_cons_self, hstart, hlast⟩
    · have hin' : start < counts.length := by simpa using hin
      have hle : start ≤ last := le_extend _ _ _ _
      have hstop : start < last + 1 := by omega
      have hjoin := (resumesAt_stepBack c hstop (show last + 1 ≤ counts.length by omega)).le
      obtain ⟨w, hw, hreach⟩ := ih line (by omega) hline
      refine ⟨w, List.mem_cons_of_mem _ ?_, hreach⟩
      rw [if_neg]
      · exact hw
      · rw [List.size_toArray]
        omega
  | case2 start hout =>
    intro line hstart hline
    have hend : counts.length ≤ start := by simpa using hout
    omega

theorem windows_covers (c : TokenChunker) (counts : List Nat) :
    LineWindow.Covers counts.length (c.windows counts) where
  inside := (cuts_windowsFrom c counts 0).inside
  reached line hline := windowsFrom_reached c counts 0 line (Nat.zero_le line) hline

end TokenChunker

namespace LineWindow

variable {lines : List (List Char)} {label : String} {file : SourceText}
  {windows : List LineWindow}

/-- A block is the joined lines of a window. -/
theorem exists_of_mem_blocks {b : Block} (h : b ∈ blocks lines label file windows) :
    ∃ w ∈ windows, b.startLine = w.first + 1 ∧ b.endLine = w.last + 1 ∧
      b.content.toList = w.content lines.toArray := by
  rw [blocks_eq] at h
  obtain ⟨w, hkept, rfl⟩ := List.mem_map.1 h
  have hw := (List.mem_filter.1 hkept).1
  exact ⟨w, hw, rfl, rfl, String.toList_ofList.trans (content_toArray lines w).symm⟩

/-- A window that is not blank becomes a block if it holds enough or is the only one. -/
theorem blocks_ne_nil_iff :
    blocks lines label file windows ≠ [] ↔
      ∃ w ∈ windows, 0 < Text.trimmedLength (w.content lines.toArray) ∧
        (windows.length = 1 ∨ minContent ≤ Text.trimmedLength (w.content lines.toArray)) := by
  have hkept : ∀ w : LineWindow, w.Kept lines windows ↔
      0 < Text.trimmedLength (w.content lines.toArray) ∧
        (windows.length = 1 ∨ minContent ≤ Text.trimmedLength (w.content lines.toArray)) := by
    intro w
    have hcontent : w.content lines.toArray = w.joined lines := content_toArray lines w
    rw [hcontent, Kept, Text.trimmedLength_pos_iff, minContent, or_comm]
  rw [blocks_eq, Ne, List.map_eq_nil_iff, List.filter_eq_nil_iff]
  simp only [decide_eq_true_eq, hkept, not_forall, not_not, exists_prop]

end LineWindow

end SourceBlocks
