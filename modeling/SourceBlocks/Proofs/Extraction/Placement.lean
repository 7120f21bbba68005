import SourceBlocks.Proofs.Block.Bounding
import SourceBlocks.Proofs.Block.Placement
import SourceBlocks.Proofs.Extraction.Chosen

/-! # Lines of extracted blocks

Whichever strategy gives the blocks of a tree, they stand in the text of the tree, hold enough of it,
and come by their first line. -/

namespace SourceBlocks

/-- Blocks that stand in the text of a tree, by their first line. -/
structure PlacedBlocks (bs : List Block) (root : Node) (file : SourceText) (s : Settings) :
    Prop where
  placed : ∀ b ∈ bs, b.PlacedIn root file s
  sorted : bs.Pairwise fun a b => a.startLine ≤ b.startLine

variable {s : Settings} {language : String} {file : SourceText} {root : Node}

theorem PlacedBlocks.nil : PlacedBlocks [] root file s :=
  ⟨by simp, List.Pairwise.nil⟩

theorem PlacedBlocks.sublist {bs cs : List Block}
    (h : PlacedBlocks bs root file s) (hs : cs.Sublist bs) : PlacedBlocks cs root file s :=
  ⟨fun b hb => h.placed b (hs.subset hb), h.sorted.sublist hs⟩

theorem placedBlocks_of_captures (hroot : root.LiesOver file.text) {captures : List Capture}
    (hbody : ∀ c ∈ captures, c.body ∈ root.preorder)
    (hsorted : captures.Pairwise fun a b => a.body.start.byte ≤ b.body.start.byte) :
    PlacedBlocks (captureBlocks s language file captures) root file s :=
  ⟨placedIn_of_captureBlocks hroot hbody, captureBlocks_sorted hroot hbody hsorted⟩

namespace Services

theorem placedBlocks_of_runQuery? (hroot : root.LiesOver file.text) (env : Environment)
    (answer : Option QueryHandle × Services) :
    PlacedBlocks (runQuery? env language file root answer).1.blocks root file
      env.settings := by
  obtain ⟨handle, s⟩ := answer
  cases handle with
  | none => exact .nil
  | some h =>
    exact placedBlocks_of_captures hroot (fun _ hc => CaptureSet.body_mem_of_ofMatches hc)
      (CaptureSet.normalize_sorted _)

theorem placedBlocks_of_attempt (hroot : root.LiesOver file.text) (env : Environment)
    (s : Services) (strategy : Strategy) :
    PlacedBlocks (s.attempt env language file root strategy).1.blocks root file
      env.settings := by
  cases strategy with
  | primaryQuery => exact placedBlocks_of_runQuery? hroot env _
  | fallbackQuery => exact placedBlocks_of_runQuery? hroot env _
  | structural =>
    exact placedBlocks_of_captures hroot (fun _ hc => body_mem_of_structuralCaptures hc)
      (structuralCaptures_sorted hroot language)
  | wholeFile =>
    rw [attempt]
    dsimp only
    split
    · cases hw : wholeFileBlock? env.settings file with
      | none => exact .nil
      | some b =>
        refine ⟨?_, List.pairwise_singleton _ _⟩
        intro d hd
        obtain rfl : d = b := by simpa using hd
        exact placedIn_of_wholeFileBlock? hw
    · exact .nil

/-- The blocks of a tree over its text each hold a slice of it, a node's or the whole, of enough
characters; their lines are those of the slice's first and last byte, so lines of the text; they
carry the file's path and hash; and they come by their first line. -/
theorem extractFromRoot_placed (s : Services) (env : Environment) (language : String)
    (file : SourceText) (root : Node) (hroot : root.LiesOver file.text) :
    PlacedBlocks (s.extractFromRoot env language file root).1.blocks root file env.settings := by
  rw [extractFromRoot_blocks]
  split
  · have hchosen : PlacedBlocks (chosenBlocks env language file root Strategy.order s) root file
        env.settings :=
      chosenBlocks_induction (P := fun bs => PlacedBlocks bs root file env.settings) .nil
        (placedBlocks_of_attempt hroot env) _ s
    exact hchosen.sublist (boundBlocks_sublist ..)
  · exact .nil

/-- A text whose heading stops behind a newline. -/
def headingFile : SourceText := ⟨"notes/a.md", "h", "# A\nb\n"⟩

/-- The tree of the text: the heading stops at column zero of the second row. -/
def headingTree : Node :=
  let node (id : Nat) (kind : String) (start stop : Position) :=
    Node.mk ⟨id, kind, none, true, start, stop⟩
  node 0 "document" ⟨0, 0, 0⟩ ⟨6, 2, 0⟩
    [node 1 "section" ⟨0, 0, 0⟩ ⟨6, 2, 0⟩
      [node 2 "atx_heading" ⟨0, 0, 0⟩ ⟨4, 1, 0⟩
        [node 3 "atx_h1_marker" ⟨0, 0, 0⟩ ⟨1, 0, 1⟩ [],
          node 4 "inline" ⟨2, 0, 2⟩ ⟨3, 0, 3⟩ []],
      node 5 "paragraph" ⟨4, 1, 0⟩ ⟨6, 2, 0⟩ [node 6 "inline" ⟨4, 1, 0⟩ ⟨5, 1, 1⟩ []]]]

/-- The heading is on the first line only. -/
theorem extractFromRoot_placed_heading :
    let env : Environment := ⟨{}, Catalogue.compiler, id⟩
    let blocks := ((Services.ofSettings {}).extractFromRoot env "markdown" headingFile
      headingTree).1.blocks
    headingTree.LiesOver headingFile.text ∧
      blocks.map (fun b => (b.content, b.startLine, b.endLine)) = [("# A\n", 1, 1)] ∧
      PlacedBlocks blocks headingTree headingFile env.settings := by
  have hroot : headingTree.LiesOver headingFile.text := by decide +kernel
  exact ⟨hroot, by decide +kernel, extractFromRoot_placed _ _ _ _ _ hroot⟩

end Services

end SourceBlocks
