import SourceBlocks.Proofs.Block.Bounding
import SourceBlocks.Proofs.Block.Placement
import SourceBlocks.Proofs.Extraction.Chosen
import SourceBlocks.Proofs.Extraction.Found

/-! # Trees of other texts

A tree may come with a text that it was not made from. A node whose bytes do not fit the text, or whose
rows are not in order, stands for the whole text. Rows are not held against the lines of the text, so a
node whose bytes happen to fit keeps its rows, also where the text has no such lines. -/

namespace SourceBlocks

open Text

/-- The bytes of the node are a piece of the text and its rows are in order, but its last row is none
of the text. -/
structure Node.Overruns (n : Node) (text : String) : Prop where
  slices : (slice? text n.start.byte n.stop.byte).isSome
  ordered : n.start.row ≤ n.lastRow
  beyond : (lines text).length ≤ n.lastRow

instance (n : Node) (text : String) : Decidable (n.Overruns text) :=
  decidable_of_iff
    ((slice? text n.start.byte n.stop.byte).isSome ∧ n.start.row ≤ n.lastRow ∧
      (lines text).length ≤ n.lastRow)
    ⟨fun ⟨h₁, h₂, h₃⟩ => ⟨h₁, h₂, h₃⟩, fun ⟨h₁, h₂, h₃⟩ => ⟨h₁, h₂, h₃⟩⟩

/-- The block has the bytes of the node for its content and the rows of the node for its lines. -/
structure Block.Covers (b : Block) (n : Node) (text : String) : Prop where
  content_eq : slice? text n.start.byte n.stop.byte = some b.content
  startLine_eq : b.startLine = n.start.row + 1
  endLine_eq : b.endLine = n.lastRow + 1

/-- The block is the whole text, with all of its lines. -/
structure Block.IsWhole (b : Block) (text : String) : Prop where
  content_eq : b.content = text
  startLine_eq : b.startLine = 1
  endLine_eq : b.endLine = (lines text).length

theorem toList_ne_nil_of_isBlankText {text : String} (h : isBlankText text = false) :
    text.toList ≠ [] := by
  intro hnil
  rw [isBlankText, hnil] at h
  contradiction

theorem Block.IsWhole.lines {b : Block} {text : String} (h : b.IsWhole text)
    (htext : text.toList ≠ []) : 1 ≤ b.startLine ∧ b.startLine ≤ b.endLine := by
  have hcount := lineCount_eq_length_lines htext
  have hone := one_le_lineCount text
  rw [h.startLine_eq, h.endLine_eq]
  omega

/-- A capture gives a block of its body's bytes and rows, or one of the whole text. -/
theorem Capture.covers_of_block? {s : Settings} {language : String} {file : SourceText}
    {c : Capture} {b : Block} (htext : file.text.toList ≠ [])
    (h : c.block? s language file = some b) :
    (b.Covers c.body file.text ∧ c.body.start.row ≤ c.body.lastRow) ∨ b.IsWhole file.text := by
  obtain ⟨hcontent, hstart, hend, -⟩ := Capture.block?_eq_some h
  rcases c.body.extent_cases file.text with ⟨content, hs, hrows, hextent⟩ | hwhole
  · rw [hextent] at hcontent hstart hend
    refine Or.inl ⟨⟨?_, hstart, hend⟩, hrows⟩
    rw [slice?, hs, hcontent]
    rfl
  · rw [hwhole] at hcontent hstart hend
    refine Or.inr ⟨?_, hstart, hend.trans (lineCount_eq_length_lines htext)⟩
    rw [hcontent]
    exact String.ofList_toList

theorem isWhole_of_wholeFileBlock? {s : Settings} {file : SourceText} {b : Block}
    (htext : file.text.toList ≠ []) (h : wholeFileBlock? s file = some b) :
    b.IsWhole file.text := by
  obtain ⟨hcontent, hstart, hend, -⟩ := wholeFileBlock?_eq_some h
  exact ⟨hcontent, hstart, hend.trans (lineCount_eq_length_lines htext)⟩

namespace Services

/-- A block of an extraction covers a node of the tree, with rows in order, or is the whole text. -/
theorem covers_of_extractFromRoot {s : Services} {env : Environment} {language : String}
    {file : SourceText} {root : Node} {b : Block}
    (hb : b ∈ (s.extractFromRoot env language file root).1.blocks) :
    file.text.toList ≠ [] ∧
      ((∃ n ∈ root.preorder, b.Covers n file.text ∧ n.start.row ≤ n.lastRow) ∨
        b.IsWhole file.text) := by
  rw [extractFromRoot_blocks] at hb
  split at hb
  case isFalse => exact absurd hb List.not_mem_nil
  case isTrue hlooked =>
    have htext := toList_ne_nil_of_isBlankText hlooked.1
    refine ⟨htext, chosenBlocks_induction (P := fun bs => ∀ b ∈ bs,
        (∃ n ∈ root.preorder, b.Covers n file.text ∧ n.start.row ≤ n.lastRow) ∨
          b.IsWhole file.text)
      (fun _ h => absurd h List.not_mem_nil) (fun t strategy b hb => ?_) _ s b
      ((boundBlocks_sublist ..).subset hb)⟩
    rcases block_of_attempt hb with ⟨-, c, hc, hblock⟩ | ⟨-, hblock⟩
    · rcases Capture.covers_of_block? htext hblock with hcovers | hwhole
      · exact Or.inl ⟨c.body, hc, hcovers⟩
      · exact Or.inr hwhole
    · exact Or.inr (isWhole_of_wholeFileBlock? htext hblock)

/-- Whatever tree comes with a text, each block covers one of its nodes or is the whole text, and its
lines are in order. They are lines of the text just when the block covers no node that overruns the
text; so all blocks have lines of the text where no node of the tree overruns it. -/
theorem extractFromRoot_lines_iff (s : Services) (env : Environment) (language : String)
    (file : SourceText) (root : Node) :
    ∀ b ∈ (s.extractFromRoot env language file root).1.blocks,
      ((∃ n ∈ root.preorder, b.Covers n file.text) ∨ b.IsWhole file.text) ∧
      1 ≤ b.startLine ∧ b.startLine ≤ b.endLine ∧
      (b.endLine ≤ (lines file.text).length ↔
        ∀ n ∈ root.preorder, b.Covers n file.text → ¬ n.Overruns file.text) := by
  intro b hb
  obtain ⟨htext, hcovers⟩ := covers_of_extractFromRoot hb
  -- a node that overruns has its last row, and so the block its last line, behind the text
  have hfits : b.endLine ≤ (lines file.text).length →
      ∀ n ∈ root.preorder, b.Covers n file.text → ¬ n.Overruns file.text := by
    intro hend n _ hn hover
    have hline := hn.endLine_eq
    have hbeyond := hover.beyond
    omega
  rcases hcovers with ⟨n, hmem, hn, hrows⟩ | hwhole
  · have hstart := hn.startLine_eq
    have hend := hn.endLine_eq
    refine ⟨Or.inl ⟨n, hmem, hn⟩, by omega, by omega, hfits, fun hnone => ?_⟩
    by_contra hlong
    refine hnone n hmem hn ⟨?_, hrows, by omega⟩
    rw [hn.content_eq]
    rfl
  · obtain ⟨hone, hle⟩ := hwhole.lines htext
    exact ⟨Or.inr hwhole, hone, hle, hfits, fun _ => hwhole.endLine_eq.le⟩

/-- The tree of a function on two lines, of 38 bytes with the newline behind it. -/
def twoLineTree : Node :=
  .mk ⟨0, "module", none, true, ⟨0, 0, 0⟩, ⟨38, 2, 0⟩⟩
    [.mk ⟨1, "function_definition", none, true, ⟨0, 0, 0⟩, ⟨37, 1, 12⟩⟩
      [.mk ⟨2, "def", none, false, ⟨0, 0, 0⟩, ⟨3, 0, 3⟩⟩ [],
        .mk ⟨3, "identifier", some "name", true, ⟨4, 0, 4⟩, ⟨21, 0, 21⟩⟩ [],
        .mk ⟨4, "parameters", some "parameters", true, ⟨21, 0, 21⟩, ⟨23, 0, 23⟩⟩
          [.mk ⟨5, "(", none, false, ⟨21, 0, 21⟩, ⟨22, 0, 22⟩⟩ [],
            .mk ⟨6, ")", none, false, ⟨22, 0, 22⟩, ⟨23, 0, 23⟩⟩ []],
        .mk ⟨7, ":", none, false, ⟨23, 0, 23⟩, ⟨24, 0, 24⟩⟩ [],
        .mk ⟨8, "block", some "body", true, ⟨29, 1, 4⟩, ⟨37, 1, 12⟩⟩
          [.mk ⟨9, "return_statement", none, true, ⟨29, 1, 4⟩, ⟨37, 1, 12⟩⟩
            [.mk ⟨10, "return", none, false, ⟨29, 1, 4⟩, ⟨35, 1, 10⟩⟩ [],
              .mk ⟨11, "integer", none, true, ⟨36, 1, 11⟩, ⟨37, 1, 12⟩⟩ []]]]]

/-- A text that is too short for the bytes of the tree. -/
def startedFile : SourceText := ⟨"x.py", "h", "def f"⟩

def startedBlock : Block := ⟨"function", "function:1", "x.py", "h", 1, 1, "def f"⟩

/-- The function does not fit, so its block is the whole text and has the one line of the text. -/
theorem extractFromRoot_lines_iff_startedFile :
    let env : Environment := ⟨{}, Catalogue.compiler, id⟩
    let blocks := ((Services.ofSettings {}).extractFromRoot env "python" startedFile
      twoLineTree).1.blocks
    startedBlock ∈ blocks ∧ (∀ n ∈ twoLineTree.preorder, ¬ n.Overruns startedFile.text) ∧
      1 ≤ startedBlock.startLine ∧ startedBlock.startLine ≤ startedBlock.endLine ∧
      startedBlock.endLine ≤ (lines startedFile.text).length := by
  intro env blocks
  have hmem : startedBlock ∈ blocks := by decide +kernel
  have hnone : ∀ n ∈ twoLineTree.preorder, ¬ n.Overruns startedFile.text := by decide +kernel
  obtain ⟨-, hone, hle, hfits⟩ :=
    extractFromRoot_lines_iff _ env "python" startedFile twoLineTree startedBlock hmem
  exact ⟨hmem, hnone, hone, hle, hfits.2 fun n hn _ => hnone n hn⟩

/-- The function of the tree on one line: as many bytes, and no second row. -/
def joinedFile : SourceText := ⟨"x.py", "h", "def far_away_function():     return 1"⟩

/-- All bytes of the function fit, so the block keeps both rows and ends on a line that the text does
not have. -/
theorem extractFromRoot_exceeds_joinedFile :
    let env : Environment := ⟨{}, Catalogue.compiler, id⟩
    let blocks := ((Services.ofSettings {}).extractFromRoot env "python" joinedFile
      twoLineTree).1.blocks
    blocks.map (fun b => (b.content, b.startLine, b.endLine)) = [(joinedFile.text, 1, 2)] ∧
      (lines joinedFile.text).length = 1 ∧
      ¬ ∀ b ∈ blocks,
        1 ≤ b.startLine ∧ b.startLine ≤ b.endLine ∧ b.endLine ≤ (lines joinedFile.text).length := by
  intro env blocks
  exact ⟨by decide +kernel, by decide +kernel, by decide +kernel⟩

end Services

end SourceBlocks
