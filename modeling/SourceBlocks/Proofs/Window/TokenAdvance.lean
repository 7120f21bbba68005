import SourceBlocks.Proofs.Window.TokenCuts

/-! # Windows with new lines

A window starts with the lines that it shares with the one before. If the line that closed that window
does not fit behind them, the window stops where the one before did and holds nothing new. The
overlap alone does not exclude this: it is less than a window takes, but what is left of the window
may be less than the line. -/

namespace SourceBlocks

/-- Some line of the window is in none of the windows before it. -/
def LineWindow.AddsTo (w : LineWindow) (before : List LineWindow) : Prop :=
  ∃ line, w.first ≤ line ∧ line ≤ w.last ∧ ∀ u ∈ before, ¬ (u.first ≤ line ∧ line ≤ u.last)

namespace TokenChunker

variable {c : TokenChunker} {counts : List Nat} {start : Nat} {v w : LineWindow}
  {windows : List LineWindow}

/-- The line that closed the first window fits behind the lines that both share, or they share none. -/
def HasRoom (c : TokenChunker) (counts : List Nat) (v w : LineWindow) : Prop :=
  w.first = v.last + 1 ∨ rangeCost counts w.first (v.last + 2) ≤ c.size

/-- The second window ends later just when it has room for the line that closed the first. -/
theorem Follows.last_lt_iff (h : c.Follows counts v w) (hw : c.StopsAt counts w.first w.last) :
    v.last < w.last ↔ c.HasRoom counts v w := by
  have hstops := h.stops
  have hmore := h.more
  have ⟨hle, _, hfits, hfull⟩ := hw
  constructor
  · intro hlater
    rcases Nat.lt_or_ge v.last w.first with hbehind | hshared
    · have hjoins := h.joins
      exact Or.inl (by omega)
    · have hmono := rangeCost_mono counts (show w.first ≤ v.last + 2 by omega)
        (show v.last + 2 ≤ w.last + 1 by omega)
      exact Or.inr (by omega)
  · rintro (hbehind | hroom)
    · omega
    · -- a window that stopped at the same line would not have been full
      by_contra hsame
      have heq : w.last = v.last := by omega
      rw [heq] at hfull
      omega

theorem Follows.hasRoom_of_le (h : c.Follows counts v w)
    (hcost : ∀ cost ∈ counts, cost + c.overlap ≤ c.size) : c.HasRoom counts v w := by
  have hmore := h.more
  have hshared := h.shared
  have hclosing := hcost counts[v.last + 1] (List.getElem_mem hmore)
  refine Or.inr ?_
  rw [rangeCost_succ h.joins hmore]
  omega

/-- Every window is as full as it can be. -/
theorem Cuts.stopsAt_of_mem (h : c.Cuts counts start windows) :
    ∀ w ∈ windows, c.StopsAt counts w.first w.last := by
  induction windows generalizing start with
  | nil => simp
  | cons u rest ih =>
    intro w hw
    rcases List.mem_cons.1 hw with rfl | hrest
    · have hstops := h.stopsAt
      rwa [← h.first w rfl] at hstops
    · cases rest with
      | nil => simp at hrest
      | cons v rest => exact ih h.tail w hrest

/-- No window ends before an earlier one. -/
theorem Cuts.last_mono (h : c.Cuts counts start windows) :
    windows.Pairwise fun v w => v.last ≤ w.last := by
  have : IsTrans LineWindow fun v w => v.last ≤ w.last := ⟨fun _ _ _ => Nat.le_trans⟩
  exact List.isChain_iff_pairwise.1 (h.follows.imp fun _ _ h => h.stops)

/-- A window has a line that no earlier one has just when it ends later than the one before. -/
theorem Cuts.addsTo_iff {before after : List LineWindow}
    (h : c.Cuts counts start (before ++ v :: w :: after)) :
    w.AddsTo (before ++ [v]) ↔ v.last < w.last := by
  have hfollows := (List.isChain_append_cons_cons.1 h.follows).2.1
  have hstarts := hfollows.starts
  have hle := (h.inside w (by simp)).1
  constructor
  · rintro ⟨line, hfirst, hlast, hnew⟩
    by_contra hsame
    exact hnew v (by simp) ⟨by omega, by omega⟩
  · intro hlater
    refine ⟨w.last, hle, Nat.le_refl _, fun u hu hin => ?_⟩
    have hend : u.last ≤ v.last := by
      rcases List.mem_append.1 hu with hbefore | hv
      · exact (List.pairwise_append.1 h.last_mono).2.2 u hbefore v List.mem_cons_self
      · obtain rfl : u = v := by simpa using hv
        exact Nat.le_refl _
    omega

/-- Of two windows that follow one another the second never ends earlier. It ends later, and has a line
that no window before has, just when the line that closed the first fits behind the lines that they
share, or they share none. So every window has a new line if no line costs more than a window takes
besides the overlap. -/
theorem windows_advance_iff (size overlap : Nat) (counts : List Nat) :
    let c := ofWindow size overlap
    (∀ before v w after, c.windows counts = before ++ v :: w :: after →
      v.last ≤ w.last ∧ (v.last < w.last ↔ c.HasRoom counts v w) ∧
        (w.AddsTo (before ++ [v]) ↔ c.HasRoom counts v w)) ∧
      ((∀ cost ∈ counts, cost + c.overlap ≤ c.size) →
        (c.windows counts).Pairwise fun v w => v.last < w.last) := by
  intro c
  have hcuts : c.Cuts counts 0 (c.windows counts) := cuts_windowsFrom c counts 0
  refine ⟨fun before v w after hsplit => ?_, fun hcost => ?_⟩
  · rw [hsplit] at hcuts
    have hfollows := (List.isChain_append_cons_cons.1 hcuts.follows).2.1
    have hlater := hfollows.last_lt_iff (hcuts.stopsAt_of_mem w (by simp))
    exact ⟨hfollows.stops, hlater, hcuts.addsTo_iff.trans hlater⟩
  · have : IsTrans LineWindow fun v w => v.last < w.last := ⟨fun _ _ _ => Nat.lt_trans⟩
    refine List.isChain_iff_pairwise.1 (hcuts.follows.imp_of_mem_imp fun v w _ hw h => ?_)
    exact (h.last_lt_iff (hcuts.stopsAt_of_mem w hw)).2 (h.hasRoom_of_le hcost)

/-- Lines of equal cost, of which three fit and one is shared. -/
theorem windows_advance_evenLines :
    let c := ofWindow 10 4
    let counts := [3, 3, 3, 3, 3, 3]
    c.windows counts = [⟨0, 2⟩, ⟨2, 4⟩, ⟨4, 5⟩] ∧
      (∀ cost ∈ counts, cost + c.overlap ≤ c.size) ∧ LineWindow.AddsTo ⟨2, 4⟩ [⟨0, 2⟩] ∧
      (c.windows counts).Pairwise fun v w => v.last < w.last := by
  intro c counts
  have hsplit : c.windows counts = [⟨0, 2⟩, ⟨2, 4⟩, ⟨4, 5⟩] := by decide +kernel
  have hcost : ∀ cost ∈ counts, cost + c.overlap ≤ c.size := by decide
  obtain ⟨hpair, hall⟩ := windows_advance_iff 10 4 counts
  have hroom : c.HasRoom counts ⟨0, 2⟩ ⟨2, 4⟩ := Or.inr (by decide)
  exact ⟨hsplit, hcost, (hpair [] ⟨0, 2⟩ ⟨2, 4⟩ [⟨4, 5⟩] hsplit).2.2.2 hroom, hall hcost⟩

/-- Two lines of 50 characters and one of 100. -/
def growingFile : SourceText :=
  ⟨"a.txt", "h", String.ofList (List.replicate 50 'a' ++ '\n' :: List.replicate 50 'b' ++
    '\n' :: List.replicate 100 'c')⟩

/-- The third line fits neither behind the first two nor behind the second alone, which is what the
overlap takes. So the second window is the second line again, and a block of its own. -/
theorem windows_repeat_line :
    let c := ofWindow 20 10
    let lines := Text.charLines growingFile.text.toList
    lines.map TokenEstimate.ofLine = [9, 9, 16] ∧
      c.windows [9, 9, 16] = [⟨0, 1⟩, ⟨1, 1⟩, ⟨2, 2⟩] ∧
      (c.chunk growingFile).map (fun b => (b.startLine, b.endLine)) = [(1, 2), (2, 2), (3, 3)] := by
  intro c lines
  have hlines : lines = [List.replicate 50 'a', List.replicate 50 'b', List.replicate 100 'c'] := by
    show Text.charLines growingFile.text.toList = _
    rw [growingFile, String.toList_ofList]
    decide +kernel
  have hcosts : lines.map TokenEstimate.ofLine = [9, 9, 16] := by
    rw [hlines]
    decide +kernel
  have hwindows : c.windows [9, 9, 16] = [⟨0, 1⟩, ⟨1, 1⟩, ⟨2, 2⟩] := by decide +kernel
  refine ⟨hcosts, hwindows, ?_⟩
  have hchunk : c.chunk growingFile =
      LineWindow.blocks lines label growingFile (c.windows (lines.map TokenEstimate.ofLine)) := rfl
  rw [hchunk, hcosts, hwindows, hlines]
  decide +kernel

end TokenChunker

end SourceBlocks
