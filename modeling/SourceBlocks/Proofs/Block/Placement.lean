import SourceBlocks.Block.Build
import SourceBlocks.Proofs.Capture.Bodies

/-! # Where blocks stand

A block of a node covers the node's bytes and the lines from that of its first byte to that of its
last, also where the node stops behind a newline. The whole file as a block follows the same rule. -/

namespace SourceBlocks

open Text

/-- A block holds a byte range of a text, and its lines are those of the first and the last byte of
the range, counted from one. -/
structure Block.StandsAt (b : Block) (text : String) (start stop : Nat) : Prop where
  content_eq : slice? text start stop = some b.content
  startLine_eq : b.startLine = 1 + newlinesBefore text.toList start
  endLine_eq : b.endLine = 1 + newlinesBefore text.toList (stop - 1)

/-- The lines of a block that holds something are lines of the text, in order. -/
theorem Block.StandsAt.lines_le {b : Block} {text : String} {start stop : Nat}
    (h : b.StandsAt text start stop) (hne : b.content.toList ≠ []) :
    b.startLine ≤ b.endLine ∧ b.endLine ≤ (lines text).length := by
  obtain ⟨cs, hcs, hb⟩ := Option.map_eq_some_iff.1 h.content_eq
  have hcs' : cs ≠ [] := by
    rintro rfl
    exact hne (by rw [← hb]; rfl)
  obtain ⟨xs, c, -, hpred, hstart, hprefix⟩ := charsBefore_last_of_sliceChars? hcs hcs'
  have hend : newlinesBefore text.toList (stop - 1) = newlines xs := congrArg newlines hpred
  rw [h.startLine_eq, h.endLine_eq, hend]
  constructor
  · have := hstart.sublist.count_le '\n'
    exact Nat.add_le_add_left this 1
  · have hlines := newlines_lt_length_charLines hprefix
    rw [lines, List.length_map]
    omega

/-! ## Rows of nodes -/

namespace Node

/-- A node that holds something ends on the row of its last byte. -/
theorem LiesIn.lastRow_eq {n : Node} {text content : List Char} (h : n.LiesIn text)
    (hs : sliceChars? text n.start.byte n.stop.byte = some content) (hne : content ≠ []) :
    n.lastRow = newlinesBefore text (n.stop.byte - 1) := by
  obtain ⟨xs, c, hstop, hpred, hstart, -⟩ := charsBefore_last_of_sliceChars? hs hne
  have hrow : n.stop.row = newlines xs + newlines [c] := by
    rw [h.stop_isIn.row_eq, newlinesBefore, hstop, newlines_append]
  have hfirst : n.start.row ≤ newlines xs := by
    rw [h.start_isIn.row_eq]
    exact hstart.sublist.count_le '\n'
  rw [newlinesBefore, hpred, lastRow]
  by_cases hc : c = '\n'
  · subst hc
    have hcol : n.stop.column = 0 := by rw [h.stop_isIn.column_eq, columnAt_of_newline hstop]
    have hone : newlines ['\n'] = 1 := rfl
    have hlt : n.start.row < n.stop.row := by omega
    simp only [hcol, hlt, decide_true, Bool.and_self, if_true]
    omega
  · have hcol : n.stop.column ≠ 0 := by
      have := columnAt_pos hstop hc
      rw [h.stop_isIn.column_eq]
      omega
    have hzero : newlines [c] = 0 := by simp [newlines, hc]
    simp only [hcol, decide_false, Bool.false_and, Bool.false_eq_true, if_false]
    omega

theorem LiesIn.lastRow_of_empty {n : Node} {text : List Char} (h : n.LiesIn text)
    (hs : sliceChars? text n.start.byte n.stop.byte = some []) : n.lastRow = n.start.row := by
  obtain ⟨hstop, -⟩ := charsBefore_stop_of_sliceChars? hs
  rw [List.append_nil] at hstop
  have hrow : n.stop.row = n.start.row := by
    rw [h.stop_isIn.row_eq, h.start_isIn.row_eq, newlinesBefore, hstop, newlinesBefore]
  simp [lastRow, hrow]

/-- A node covers its own bytes and rows of a text where the bytes are a piece of the text and the rows
are in order, and the whole text otherwise. -/
theorem extent_cases (n : Node) (text : String) :
    (∃ content, sliceChars? text.toList n.start.byte n.stop.byte = some content ∧
      n.start.row ≤ n.lastRow ∧ n.extent text = ⟨content, n.start.row + 1, n.lastRow + 1⟩) ∨
    n.extent text = .whole text := by
  rw [extent]
  split
  case h_1 content hs =>
    split
    case isTrue hrows => exact Or.inl ⟨content, hs, hrows, rfl⟩
    case isFalse => exact Or.inr rfl
  case h_2 => exact Or.inr rfl

/-- A node that lies in a text covers its own bytes and rows of it, never the whole text instead. -/
theorem LiesIn.extent_eq {n : Node} {text : String} (h : n.LiesIn text.toList) :
    ∃ content, sliceChars? text.toList n.start.byte n.stop.byte = some content ∧
      n.extent text = ⟨content, n.start.row + 1, n.lastRow + 1⟩ := by
  obtain ⟨content, hs⟩ := sliceChars?_isSome h.start_le_stop h.start_isIn.boundary
    h.stop_isIn.boundary
  refine ⟨content, hs, ?_⟩
  have hrows : n.start.row ≤ n.lastRow := by
    by_cases hne : content = []
    · subst hne
      exact Nat.le_of_eq (h.lastRow_of_empty hs).symm
    · obtain ⟨xs, c, -, hpred, hstart, -⟩ := charsBefore_last_of_sliceChars? hs hne
      rw [h.lastRow_eq hs hne, h.start_isIn.row_eq, newlinesBefore, newlinesBefore, hpred]
      exact hstart.sublist.count_le '\n'
  simp only [extent, hs, if_pos hrows]

end Node

/-! ## Blocks -/

/-- A block of a file that holds enough and carries its path and hash. It stands at the range of a
node of the tree, or it is the whole file as a block, and its lines are lines of the text. -/
structure Block.PlacedIn (b : Block) (root : Node) (file : SourceText) (s : Settings) : Prop where
  range : ∃ start stop, b.StandsAt file.text start stop ∧
    ((∃ n ∈ root.preorder, n.start.byte = start ∧ n.stop.byte = stop) ∨
      (wholeFileBlock? s file = some b ∧ b.content = file.text))
  size_le : max 1 s.minBlockChars ≤ trimmedLength b.content.toList
  one_le_startLine : 1 ≤ b.startLine
  startLine_le_endLine : b.startLine ≤ b.endLine
  endLine_le : b.endLine ≤ (lines file.text).length
  path_eq : b.path = file.path
  hash_eq : b.hash = file.hash

theorem ne_nil_of_trimmedLength {cs : List Char} {k : Nat} (h : max 1 k ≤ trimmedLength cs) :
    cs ≠ [] := by
  rintro rfl
  rw [trimmedLength_nil] at h
  omega

/-- Lines need no care of their own: they follow from where the block stands. -/
theorem Block.StandsAt.placedIn {b : Block} {root : Node} {file : SourceText} {s : Settings}
    {start stop : Nat} (h : b.StandsAt file.text start stop)
    (hrange : (∃ n ∈ root.preorder, n.start.byte = start ∧ n.stop.byte = stop) ∨
      (wholeFileBlock? s file = some b ∧ b.content = file.text))
    (hsize : max 1 s.minBlockChars ≤ trimmedLength b.content.toList)
    (hpath : b.path = file.path) (hhash : b.hash = file.hash) : b.PlacedIn root file s := by
  obtain ⟨hle, hend⟩ := h.lines_le (ne_nil_of_trimmedLength hsize)
  refine ⟨⟨start, stop, h, hrange⟩, hsize, ?_, hle, hend, hpath, hhash⟩
  rw [h.startLine_eq]
  exact Nat.le_add_right 1 _

theorem Capture.block?_eq_some {s : Settings} {language : String} {file : SourceText} {c : Capture}
    {b : Block} (h : c.block? s language file = some b) :
    b.content = String.ofList (c.body.extent file.text).content ∧
      b.startLine = (c.body.extent file.text).startLine ∧
      b.endLine = (c.body.extent file.text).endLine ∧
      max 1 s.minBlockChars ≤ trimmedLength (c.body.extent file.text).content ∧
      b.type = c.type ∧ b.path = file.path ∧ b.hash = file.hash := by
  simp only [Capture.block?] at h
  split at h
  case isTrue => simp at h
  case isFalse hsize =>
    simp only [Bool.or_eq_true, decide_eq_true_eq, not_or] at hsize
    obtain rfl := Option.some.inj h
    exact ⟨rfl, rfl, rfl, by omega, rfl, rfl, rfl⟩

/-- The block of a node of the tree stands at the node's bytes. -/
theorem Capture.standsAt_of_block? {s : Settings} {language : String} {file : SourceText}
    {c : Capture} {b : Block} (hbody : c.body.LiesIn file.text.toList)
    (h : c.block? s language file = some b) :
    b.StandsAt file.text c.body.start.byte c.body.stop.byte := by
  obtain ⟨hcontent, hstart, hend, hsize, -⟩ := Capture.block?_eq_some h
  obtain ⟨content, hs, hextent⟩ := hbody.extent_eq
  rw [hextent] at hcontent hstart hend hsize
  dsimp only at hcontent hstart hend hsize
  constructor
  · rw [slice?, hs, hcontent]
    rfl
  · rw [hstart, hbody.start_isIn.row_eq, Nat.add_comm]
  · rw [hend, hbody.lastRow_eq hs (ne_nil_of_trimmedLength hsize), Nat.add_comm]

theorem Capture.placedIn_of_block? {s : Settings} {language : String} {file : SourceText}
    {root : Node} {c : Capture} {b : Block} (hroot : root.LiesOver file.text)
    (hbody : c.body ∈ root.preorder) (h : c.block? s language file = some b) :
    b.PlacedIn root file s := by
  obtain ⟨hcontent, -, -, hsize, -, hpath, hhash⟩ := Capture.block?_eq_some h
  have hstands := Capture.standsAt_of_block? (hroot _ hbody) h
  refine hstands.placedIn (Or.inl ⟨_, hbody, rfl, rfl⟩) ?_ hpath hhash
  rw [hcontent, String.toList_ofList]
  exact hsize

theorem wholeFileBlock?_eq_some {s : Settings} {file : SourceText} {b : Block}
    (h : wholeFileBlock? s file = some b) :
    b.content = file.text ∧ b.startLine = 1 ∧ b.endLine = lineCount file.text ∧
      max 1 s.minBlockChars ≤ trimmedLength file.text.toList ∧
      b.path = file.path ∧ b.hash = file.hash := by
  simp only [wholeFileBlock?] at h
  split at h
  case isTrue => simp at h
  case isFalse hsize =>
    obtain rfl := Option.some.inj h
    exact ⟨rfl, rfl, rfl, by omega, rfl, rfl⟩

theorem placedIn_of_wholeFileBlock? {s : Settings} {file : SourceText} {root : Node} {b : Block}
    (h : wholeFileBlock? s file = some b) : b.PlacedIn root file s := by
  obtain ⟨hcontent, hstart, hend, hsize, hpath, hhash⟩ := wholeFileBlock?_eq_some h
  have hwhole := sliceChars?_whole file.text.toList
  have hstands : b.StandsAt file.text 0 (byteLength file.text.toList) := by
    constructor
    · rw [slice?, hwhole, hcontent, Option.map_some, String.ofList_toList]
    · rw [hstart, newlinesBefore_zero]
    · obtain ⟨xs, c, hstop, hpred, -, -⟩ :=
        charsBefore_last_of_sliceChars? hwhole (ne_nil_of_trimmedLength hsize)
      have hall : file.text.toList = xs ++ [c] := by
        rw [← hstop]
        simpa using (charsBefore_byteLength file.text.toList []).symm
      have hcount := length_charLines_concat xs c
      rw [← hall] at hcount
      rw [hend, newlinesBefore, hpred, lineCount, hcount]
      omega
  exact hstands.placedIn (Or.inr ⟨h, hcontent⟩) (hcontent ▸ hsize) hpath hhash

/-! ## Lists of blocks -/

/-- Captures of a tree that come by the start of their bodies give blocks that come by their first
line. -/
theorem captureBlocks_sorted {s : Settings} {language : String} {file : SourceText} {root : Node}
    {captures : List Capture} (hroot : root.LiesOver file.text)
    (hbody : ∀ c ∈ captures, c.body ∈ root.preorder)
    (hsorted : captures.Pairwise fun a b => a.body.start.byte ≤ b.body.start.byte) :
    (captureBlocks s language file captures).Pairwise fun a b => a.startLine ≤ b.startLine := by
  refine List.pairwise_filterMap.2 ((List.Pairwise.and_mem.1 hsorted).imp ?_)
  intro c d ⟨hc, hd, hcd⟩ a ha b hb
  have hca := Capture.standsAt_of_block? (hroot _ (hbody c hc)) ha
  have hdb := Capture.standsAt_of_block? (hroot _ (hbody d hd)) hb
  rw [hca.startLine_eq, hdb.startLine_eq]
  exact Nat.add_le_add_left (newlinesBefore_mono _ hcd) 1

theorem placedIn_of_captureBlocks {s : Settings} {language : String} {file : SourceText}
    {root : Node} {captures : List Capture} (hroot : root.LiesOver file.text)
    (hbody : ∀ c ∈ captures, c.body ∈ root.preorder) :
    ∀ b ∈ captureBlocks s language file captures, b.PlacedIn root file s := by
  intro b hb
  obtain ⟨c, hc, h⟩ := List.mem_filterMap.1 hb
  exact Capture.placedIn_of_block? hroot (hbody c hc) h

end SourceBlocks
