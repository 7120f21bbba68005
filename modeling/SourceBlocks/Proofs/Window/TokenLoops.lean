import SourceBlocks.Proofs.Window.TokenCuts

/-! # The loops over token counts

The same loops with every line looked up, every sum kept within a word, and every turn paid for. They
never run short of any of these: they look only at lines that are there, form no sum above what all
lines cost, and take at most one turn for each line. -/

namespace SourceBlocks.TokenChunker

/-- A sum that a word holds. -/
def sumWithin (word a b : Nat) : Option Nat := if a + b ≤ word then some (a + b) else none

/-- `extend` with lines that are looked up, sums within a word, and turns that run out. -/
def extend? (word : Nat) (counts : List Nat) (size : Nat) : (turns last total : Nat) → Option Nat
  | 0, _, _ => none
  | turns + 1, last, total =>
    if last + 1 < counts.length then do
      let cost ← counts[last + 1]?
      let total ← sumWithin word total cost
      if total ≤ size then extend? word counts size turns (last + 1) total else some last
    else some last

def stepBack? (word : Nat) (counts : List Nat) (overlap start : Nat) :
    (turns next taken : Nat) → Option Nat
  | 0, _, _ => none
  | turns + 1, next, taken =>
    if start + 1 < next then do
      let cost ← counts[next - 1]?
      let taken ← sumWithin word taken cost
      if taken ≤ overlap then stepBack? word counts overlap start turns (next - 1) taken
      else some next
    else some next

def windowsFrom? (word : Nat) (counts : List Nat) (c : TokenChunker) :
    (turns start : Nat) → Option (List LineWindow)
  | 0, _ => none
  | turns + 1, start =>
    if start < counts.length then do
      let total ← counts[start]?
      let last ← extend? word counts c.size counts.length start total
      if last + 1 = counts.length then some [⟨start, last⟩]
      else do
        let next ← stepBack? word counts c.overlap start counts.length (last + 1) 0
        let rest ← windowsFrom? word counts c turns next
        some (⟨start, last⟩ :: rest)
    else some []

/-- The windows, if words up to `word` hold all sums and no loop takes more than one turn for each
line, and the outermost one more to see that it is done. -/
def windows? (word : Nat) (c : TokenChunker) (counts : List Nat) : Option (List LineWindow) :=
  windowsFrom? word counts c (counts.length + 1) 0

variable {word : Nat} {counts : List Nat}

theorem sumWithin_eq {a b : Nat} (h : a + b ≤ word) : sumWithin word a b = some (a + b) :=
  if_pos h

/-- Extending a window takes one turn for each line that follows, and one more. -/
theorem extend?_eq (hword : counts.sum ≤ word) {size start turns : Nat} :
    ∀ {last total : Nat}, start ≤ last → last < counts.length →
      total = rangeCost counts start (last + 1) → counts.length ≤ last + turns →
        extend? word counts size turns last total =
          some (extend counts.toArray size last total) := by
  induction turns with
  | zero =>
    intro last total _ hlast _ hturns
    omega
  | succ turns ih =>
    intro last total hstart hlast htotal hturns
    rw [extend?, extend]
    by_cases hnext : last + 1 < counts.length
    · have htotal' : total + counts[last + 1] = rangeCost counts start (last + 1 + 1) := by
        rw [rangeCost_succ (by omega) hnext, htotal]
      have hsum : total + counts[last + 1] ≤ word := by
        rw [htotal']
        exact Nat.le_trans (rangeCost_le_sum counts (by omega)) hword
      rw [if_pos hnext, dif_pos (by simpa using hnext), List.getElem?_eq_getElem hnext]
      simp only [Option.bind_eq_bind, Option.bind_some, sumWithin_eq hsum, List.getElem_toArray]
      by_cases hfits : total + counts[last + 1] ≤ size
      · rw [if_pos hfits, if_pos hfits]
        exact ih (by omega) hnext htotal' (by omega)
      · rw [if_neg hfits, if_neg hfits]
    · rw [if_neg hnext, dif_neg (by simpa using hnext)]

/-- Stepping back takes one turn for each line of the window. -/
theorem stepBack?_eq (hword : counts.sum ≤ word) {overlap start stop turns : Nat} :
    ∀ {next taken : Nat}, start < next → next ≤ stop → stop ≤ counts.length →
      taken = rangeCost counts next stop → next ≤ start + turns →
        stepBack? word counts overlap start turns next taken =
          some (stepBack counts.toArray overlap start next taken) := by
  induction turns with
  | zero =>
    intro next taken hnext _ _ _ hturns
    omega
  | succ turns ih =>
    intro next taken hnext hstop hlen htaken hturns
    obtain ⟨line, rfl⟩ : ∃ line, next = line + 1 := ⟨next - 1, by omega⟩
    rw [stepBack?, stepBack]
    by_cases hback : start < line
    · have hin : line < counts.length := by omega
      have hread : counts.toArray.getD line 0 = counts[line] := by simp [Array.getD, hin]
      have htaken' : taken + counts[line] = rangeCost counts line stop := by
        rw [rangeCost_pred (by omega) hin, htaken, Nat.add_comm]
      have hsum : taken + counts[line] ≤ word := by
        rw [htaken']
        exact Nat.le_trans (rangeCost_le_sum counts (by omega)) hword
      rw [if_pos (by omega), Nat.add_sub_cancel, List.getElem?_eq_getElem hin, hread]
      simp only [Option.bind_eq_bind, Option.bind_some, sumWithin_eq hsum, hback, true_and]
      by_cases hfits : taken + counts[line] ≤ overlap
      · rw [if_pos hfits, if_pos hfits]
        exact ih hback (by omega) hlen htaken' (by omega)
      · rw [if_neg hfits, if_neg hfits]
    · rw [if_neg (by omega), if_neg fun h => hback h.1]

/-- Each window starts behind the one before, so that there is at most one turn for each line. -/
theorem windowsFrom?_eq (hword : counts.sum ≤ word) (c : TokenChunker) {turns : Nat} :
    ∀ {start : Nat}, start ≤ counts.length → counts.length < start + turns →
      windowsFrom? word counts c turns start = some (windowsFrom counts.toArray c start) := by
  induction turns with
  | zero =>
    intro start hin hturns
    omega
  | succ turns ih =>
    intro start _ hturns
    rw [windowsFrom?, windowsFrom]
    by_cases hstart : start < counts.length
    · obtain ⟨hle, hlast, -, -⟩ := stopsAt_extend c hstart
      have hextend : extend? word counts c.size counts.length start counts[start] =
          some (extend counts.toArray c.size start counts[start]) :=
        extend?_eq hword (Nat.le_refl start) hstart (rangeCost_one hstart).symm
          (Nat.le_add_left counts.length start)
      rw [if_pos hstart, dif_pos (by simpa using hstart), List.getElem?_eq_getElem hstart]
      simp only [Option.bind_eq_bind, Option.bind_some, hextend, List.getElem_toArray,
        List.size_toArray]
      generalize extend counts.toArray c.size start counts[start] = last at hle hlast ⊢
      by_cases hend : last + 1 = counts.length
      · rw [if_pos hend, if_pos hend]
      · have hstop : start < last + 1 := by omega
        have hlen : last + 1 ≤ counts.length := by omega
        obtain ⟨hlt, hjoin, -, -⟩ := resumesAt_stepBack c hstop hlen
        have hstep : stepBack? word counts c.overlap start counts.length (last + 1) 0 =
            some (stepBack counts.toArray c.overlap start (last + 1) 0) :=
          stepBack?_eq hword hstop (Nat.le_refl (last + 1)) hlen
            (rangeCost_self counts (last + 1)).symm (by omega)
        rw [if_neg hend, if_neg hend, hstep, Option.bind_some, ih (by omega) (by omega),
          Option.bind_some]
    · rw [if_neg hstart, dif_neg (by simpa using hstart)]

/-- For any counts, window and overlap the loops come to an end without looking past the lines, and
the windows that they find are the only ones that cut the lines as windows should: from the first
line to the last, each as full as it can be, and with as much overlap as there is room for. Starts
strictly increase, and ends never decrease. -/
theorem windows_cut (size overlap : Nat) (counts : List Nat) :
    let c := ofWindow size overlap
    let windows := c.windows counts
    (∀ word, counts.sum ≤ word → c.windows? word counts = some windows) ∧
      (∀ ws, c.Cuts counts 0 ws ↔ ws = windows) ∧
      windows.Pairwise fun v w => v.first < w.first ∧ v.last ≤ w.last := by
  intro c windows
  have hcuts : c.Cuts counts 0 windows := cuts_windowsFrom c counts 0
  refine ⟨fun word hword => ?_, fun ws => ⟨fun h => h.eq_windowsFrom, fun h => h ▸ hcuts⟩, ?_⟩
  · exact windowsFrom?_eq hword c (Nat.zero_le _) (by omega)
  · have : IsTrans LineWindow fun v w => v.first < w.first ∧ v.last ≤ w.last :=
      ⟨fun _ _ _ h h' => ⟨Nat.lt_trans h.1 h'.1, Nat.le_trans h.2 h'.2⟩⟩
    exact List.isChain_iff_pairwise.1 (hcuts.follows.imp fun _ _ h => ⟨h.starts, h.stops⟩)

/-- Three lines fit, and one of them is shared. -/
example : (ofWindow 10 4).windows [3, 3, 3, 3, 3, 3] = [⟨0, 2⟩, ⟨2, 4⟩, ⟨4, 5⟩] := by
  decide +kernel

end SourceBlocks.TokenChunker
