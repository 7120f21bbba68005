import SourceBlocks.Proofs.Text.LineBreaks
import SourceBlocks.Proofs.Text.Trimming
import SourceBlocks.Proofs.Window.RangeCost
import SourceBlocks.Window.Lines

/-! # Windows of line lengths

A window is closed by the first line with which it reaches the limit, or by the last line. So the
windows follow one another without a gap, and only the last may stay below the limit. The blocks are
the windows that are not blank and hold enough, or the only window. -/

namespace SourceBlocks

/-- The numbers of the lines of a window. -/
def LineWindow.lineNumbers (w : LineWindow) : List Nat := List.range' w.first (w.last + 1 - w.first)

theorem LineWindow.mem_lineNumbers {w : LineWindow} {i : Nat} :
    i ∈ w.lineNumbers ↔ w.first ≤ i ∧ i ≤ w.last := by
  rw [lineNumbers, List.mem_range'_1]
  omega

namespace LineChunker

/-! ## The cut -/

/-- The windows cut the lines from `start` on: together they have each line once and in order, each
but the last reaches the limit, and none reaches it before its last line. -/
structure Cuts (limit : Nat) (costs : List Nat) (start : Nat) (windows : List LineWindow) :
    Prop where
  partition : windows.flatMap LineWindow.lineNumbers = List.range' start (costs.length - start)
  inside : ∀ w ∈ windows, w.first ≤ w.last ∧ w.last < costs.length
  full : ∀ w ∈ windows.dropLast, limit ≤ rangeCost costs w.first (w.last + 1)
  least : ∀ w ∈ windows, ∀ stop, w.first < stop → stop ≤ w.last →
    rangeCost costs w.first stop < limit

/-- A window that the cut may have at `start`. -/
structure Closes (limit : Nat) (costs : List Nat) (start last : Nat) : Prop where
  le : start ≤ last
  lt : last < costs.length
  full : last + 1 = costs.length ∨ limit ≤ rangeCost costs start (last + 1)
  least : ∀ stop, start < stop → stop ≤ last → rangeCost costs start stop < limit

variable {limit start last : Nat} {costs : List Nat} {w : LineWindow} {windows : List LineWindow}

theorem Closes.unique {last' : Nat} (h : Closes limit costs start last)
    (h' : Closes limit costs start last') : last = last' := by
  have hlt := h.lt
  have hlt' := h'.lt
  rcases Nat.lt_trichotomy last last' with hless | heq | hmore
  · have hcost := h'.least (last + 1) (Nat.lt_succ_of_le h.le) hless
    have hfull := h.full
    omega
  · exact heq
  · have hcost := h.least (last' + 1) (Nat.lt_succ_of_le h'.le) hmore
    have hfull := h'.full
    omega

namespace Cuts

theorem eq_nil_iff (h : Cuts limit costs start windows) :
    windows = [] ↔ costs.length ≤ start := by
  have hpartition := h.partition
  constructor
  · rintro rfl
    rw [List.flatMap_nil, eq_comm, List.range'_eq_nil_iff] at hpartition
    omega
  · intro hend
    rw [Nat.sub_eq_zero_of_le hend, List.range'_zero, List.flatMap_eq_nil_iff] at hpartition
    refine List.eq_nil_iff_forall_not_mem.2 fun w hw => ?_
    have hfirst : w.first ∈ w.lineNumbers :=
      LineWindow.mem_lineNumbers.2 ⟨Nat.le_refl _, (h.inside w hw).1⟩
    rw [hpartition w hw] at hfirst
    simp at hfirst

theorem nil : Cuts limit costs costs.length [] where
  partition := by simp
  inside := by simp
  full := by simp
  least := by simp

theorem cons (hlast : Closes limit costs start last) (h : Cuts limit costs (last + 1) windows) :
    Cuts limit costs start (⟨start, last⟩ :: windows) := by
  have ⟨hle, hlt, hfull, hleast⟩ := hlast
  constructor
  · rw [List.flatMap_cons, h.partition, LineWindow.lineNumbers]
    have hjoin : start + (last + 1 - start) = last + 1 := by omega
    have hsum : last + 1 - start + (costs.length - (last + 1)) = costs.length - start := by omega
    rw [← hsum, ← List.range'_append_1, hjoin]
  · intro w hw
    rcases List.mem_cons.1 hw with rfl | hrest
    · exact ⟨hle, hlt⟩
    · exact h.inside w hrest
  · intro w hw
    have hend := h.eq_nil_iff
    cases windows with
    | nil => simp at hw
    | cons v rest =>
      rw [List.dropLast_cons_cons] at hw
      rcases List.mem_cons.1 hw with rfl | hrest
      · have hmore : ¬ costs.length ≤ last + 1 := fun hle => by simpa using hend.2 hle
        exact hfull.resolve_left (by omega)
      · exact h.full w hrest
  · intro w hw
    rcases List.mem_cons.1 hw with rfl | hrest
    · exact hleast
    · exact h.least w hrest

/-- A cut that is not empty is its first window and a cut of the lines behind it. -/
theorem of_cons (h : Cuts limit costs start (w :: windows)) :
    w.first = start ∧ Closes limit costs start w.last ∧ Cuts limit costs (w.last + 1) windows := by
  obtain ⟨hle, hlt⟩ := h.inside w List.mem_cons_self
  have hpartition := h.partition
  have hmore : start < costs.length := by
    have hend := h.eq_nil_iff
    simpa using hend
  rw [List.flatMap_cons, LineWindow.lineNumbers] at hpartition
  obtain rfl : w.first = start := by
    obtain ⟨k, hk⟩ := Nat.exists_eq_add_one.2 (show 0 < w.last + 1 - w.first by omega)
    obtain ⟨m, hm⟩ := Nat.exists_eq_add_one.2 (show 0 < costs.length - start by omega)
    rw [hk, hm, List.range'_succ, List.range'_succ, List.cons_append] at hpartition
    exact (List.cons.inj hpartition).1
  have hrest : windows.flatMap LineWindow.lineNumbers =
      List.range' (w.last + 1) (costs.length - (w.last + 1)) := by
    have hjoin : w.first + (w.last + 1 - w.first) = w.last + 1 := by omega
    have hsum : w.last + 1 - w.first + (costs.length - (w.last + 1)) =
        costs.length - w.first := by omega
    rw [← hsum, ← List.range'_append_1, hjoin] at hpartition
    exact List.append_cancel_left hpartition
  have hcut : Cuts limit costs (w.last + 1) windows := {
    partition := hrest
    inside := fun v hv => h.inside v (List.mem_cons_of_mem _ hv)
    full := fun v hv => by
      cases windows with
      | nil => simp at hv
      | cons u rest => exact h.full v (by simp [hv])
    least := fun v hv => h.least v (List.mem_cons_of_mem _ hv) }
  refine ⟨rfl, ⟨hle, hlt, ?_, h.least w List.mem_cons_self⟩, hcut⟩
  cases windows with
  | nil =>
    have hend := hcut.eq_nil_iff.1 rfl
    omega
  | cons u rest => exact Or.inr (h.full w (by simp))

/-- There is only one way to cut the lines so. -/
theorem unique (h : Cuts limit costs start windows) :
    ∀ {windows' : List LineWindow}, Cuts limit costs start windows' → windows = windows' := by
  induction windows generalizing start with
  | nil => exact fun h' => (h'.eq_nil_iff.2 (h.eq_nil_iff.1 rfl)).symm
  | cons w rest ih =>
    intro windows' h'
    cases windows' with
    | nil => exact absurd (h.eq_nil_iff.2 (h'.eq_nil_iff.1 rfl)) (by simp)
    | cons w' rest' =>
      obtain ⟨hfirst, hcloses, hrest⟩ := h.of_cons
      obtain ⟨hfirst', hcloses', hrest'⟩ := h'.of_cons
      have hlast : w.last = w'.last := hcloses.unique hcloses'
      obtain rfl : w = w' := by
        cases w
        cases w'
        simp_all
      rw [ih hrest hrest']

/-- A window ends before all later ones start. -/
theorem ordered (h : Cuts limit costs start windows) :
    windows.Pairwise fun v w => v.last < w.first := by
  have hsorted : (windows.flatMap LineWindow.lineNumbers).Pairwise (· < ·) := by
    rw [h.partition]
    exact List.pairwise_lt_range'
  refine (List.Pairwise.and_mem.1 (List.pairwise_flatMap.1 hsorted).2).imp ?_
  intro v w ⟨hv, hw, hlt⟩
  have hv := (h.inside v hv).1
  have hw := (h.inside w hw).1
  exact hlt v.last (LineWindow.mem_lineNumbers.2 ⟨hv, Nat.le_refl _⟩) w.first
    (LineWindow.mem_lineNumbers.2 ⟨Nat.le_refl _, hw⟩)

end Cuts

/-! ## The loop -/

/-- The loop keeps the cost of the open window, which has not reached the limit yet; where no line
follows, no window is open. -/
theorem cuts_windowsFrom {lines rest : List (List Char)} {i length : Nat}
    (hrest : lines.drop i = rest) (hstart : start ≤ i)
    (hlength : length = rangeCost (lines.map cost) start i)
    (hopen : ∀ stop, start < stop → stop ≤ i → rangeCost (lines.map cost) start stop < limit)
    (hdone : rest = [] → start = lines.length) :
    Cuts limit (lines.map cost) start (windowsFrom limit start i length rest) := by
  induction rest generalizing start i length with
  | nil =>
    rw [windowsFrom, hdone rfl, ← List.length_map cost]
    exact .nil
  | cons line rest ih =>
    have hi : i < lines.length := by
      have hlength := congrArg List.length hrest
      rw [List.length_drop, List.length_cons] at hlength
      omega
    obtain ⟨hline, hrest'⟩ : lines[i] = line ∧ lines.drop (i + 1) = rest := by
      rw [List.drop_eq_getElem_cons hi] at hrest
      exact List.cons.inj hrest
    have hcosts : i < (lines.map cost).length := by rwa [List.length_map]
    have hlength' : length + cost line = rangeCost (lines.map cost) start (i + 1) := by
      rw [rangeCost_succ hstart hcosts, List.getElem_map, hline, hlength]
    have hend : rest = [] ↔ i + 1 = lines.length := by
      rw [← hrest', List.drop_eq_nil_iff]
      omega
    rw [windowsFrom, hlength']
    split
    case isTrue hclose =>
      have hfull : i + 1 = (lines.map cost).length ∨
          limit ≤ rangeCost (lines.map cost) start (i + 1) := by
        rw [List.length_map, ← hend]
        simpa [or_comm] using hclose
      have hcut := ih hrest' (Nat.le_refl _) (rangeCost_self _ _).symm
        (fun stop hlt hle => by omega) (fun hnil => hend.1 hnil)
      exact .cons ⟨hstart, hcosts, hfull, hopen⟩ hcut
    case isFalse hkeep =>
      obtain ⟨hbelow, hmore⟩ : rangeCost (lines.map cost) start (i + 1) < limit ∧ rest ≠ [] := by
        simpa using hkeep
      refine ih hrest' (Nat.le_succ_of_le hstart) rfl (fun stop hlt hle => ?_)
        (fun hnil => absurd hnil hmore)
      rcases Nat.lt_or_ge i stop with hnew | hold
      · obtain rfl : stop = i + 1 := by omega
        exact hbelow
      · exact hopen stop hlt hold

theorem cuts_windows (limit : Nat) (lines : List (List Char)) :
    Cuts limit (lines.map cost) 0 (LineChunker.windows limit lines) :=
  cuts_windowsFrom rfl (Nat.le_refl 0) (rangeCost_self _ _).symm
    (fun stop hlt hle => by omega) (fun hnil => by simpa using congrArg List.length hnil.symm)

-- the last line fills the second window, and no empty window follows
example : LineChunker.windows 4 [['a', 'b', 'c'], [], ['d', 'e']] = [⟨0, 0⟩, ⟨1, 2⟩] := by decide

end LineChunker

/-! ## The blocks -/

namespace LineWindow

variable {lines : List (List Char)} {windows : List LineWindow}

/-- The lines of the window with newlines between them. -/
def joined (lines : List (List Char)) (w : LineWindow) : List Char :=
  List.intercalate ['\n'] ((lines.drop w.first).take (w.last + 1 - w.first))

/-- The window is not blank, and it holds enough or is the only one. -/
def Kept (lines : List (List Char)) (windows : List LineWindow) (w : LineWindow) : Prop :=
  (∃ c ∈ w.joined lines, Text.isBlank c = false) ∧
    (50 ≤ Text.trimmedLength (w.joined lines) ∨ windows.length = 1)

instance (w : LineWindow) : Decidable (w.Kept lines windows) :=
  inferInstanceAs (Decidable ((∃ c ∈ w.joined lines, Text.isBlank c = false) ∧
    (50 ≤ Text.trimmedLength (w.joined lines) ∨ windows.length = 1)))

/-- The block of a window; it counts lines from one. -/
def toBlock (lines : List (List Char)) (label : String) (file : SourceText) (w : LineWindow) :
    Block where
  type := "chunk"
  identifier := s!"{label}:{w.first + 1}-{w.last + 1}"
  path := file.path
  hash := file.hash
  startLine := w.first + 1
  endLine := w.last + 1
  content := String.ofList (w.joined lines)

theorem block?_eq (label : String) (file : SourceText) (w : LineWindow) :
    w.block? lines.toArray label file (windows.length == 1) =
      if w.Kept lines windows then some (w.toBlock lines label file) else none := by
  have hcontent : w.content lines.toArray = w.joined lines := content_toArray lines w
  have hkept : w.Kept lines windows ↔
      ¬ (Text.trimmedLength (w.joined lines) = 0 ∨
        Text.trimmedLength (w.joined lines) < minContent ∧ ¬ windows.length = 1) := by
    rw [Kept, ← Text.trimmedLength_pos_iff, minContent]
    omega
  rw [block?, hcontent]
  by_cases h : w.Kept lines windows
  · rw [if_pos h, if_neg (by simpa using hkept.1 h)]
    rfl
  · rw [if_neg h, if_pos (by simpa using not_not.1 (mt hkept.2 h))]

theorem blocks_eq (lines : List (List Char)) (label : String) (file : SourceText)
    (windows : List LineWindow) :
    blocks lines label file windows =
      (windows.filter fun w => decide (w.Kept lines windows)).map (toBlock lines label file) := by
  rw [← List.filterMap_eq_map, List.filterMap_filter, blocks]
  refine List.filterMap_congr fun w _ => ?_
  rw [block?_eq]
  simp

end LineWindow

/-- The windows are the one way to cut the lines so that each window but the last reaches the limit,
and none before its last line; only the empty text has none. The blocks are the windows that are kept,
in order, each with its lines; they hold no line twice. -/
theorem LineChunker.chunk_cuts (maxChars : Nat) (file : SourceText) :
    let lines := Text.charLines file.text.toList
    let c : LineChunker := ⟨maxChars⟩
    let windows := LineChunker.windows c.limit lines
    (∀ limit ws, Cuts limit (lines.map fun line => line.length + 1) 0 ws ↔
        ws = LineChunker.windows limit lines) ∧
      (windows = [] ↔ file.text = "") ∧
      c.chunk file = (windows.filter fun w => decide (w.Kept lines windows)).map
        (LineWindow.toBlock lines "lines" file) ∧
      (c.chunk file).Pairwise fun a b => a.endLine < b.startLine := by
  intro lines c windows
  have hcuts : ∀ limit, Cuts limit (lines.map cost) 0 (LineChunker.windows limit lines) :=
    fun limit => cuts_windows limit lines
  have hblocks : c.chunk file = (windows.filter fun w => decide (w.Kept lines windows)).map
      (LineWindow.toBlock lines "lines" file) :=
    LineWindow.blocks_eq lines label file windows
  refine ⟨fun limit ws => ⟨fun h => h.unique (hcuts limit), ?_⟩, ?_, hblocks, ?_⟩
  · rintro rfl
    exact hcuts limit
  · rw [(hcuts c.limit).eq_nil_iff, List.length_map, Nat.le_zero, List.length_eq_zero_iff,
      Text.charLines_eq_nil_iff, String.toList_eq_nil_iff]
  · rw [hblocks, List.pairwise_map]
    refine (List.Pairwise.filter _ (hcuts c.limit).ordered).imp fun {v w} hlt => ?_
    show v.last + 1 < w.first + 1
    omega

end SourceBlocks
