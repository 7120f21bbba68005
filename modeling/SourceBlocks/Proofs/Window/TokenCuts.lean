import Mathlib.Data.List.Chain
import SourceBlocks.Proofs.Window.RangeCost
import SourceBlocks.Window.Tokens

/-! # Windows of token counts

Each window takes lines as long as they fit, and shares as many lines with the one before as the
overlap allows. Together with the first and the last line this settles all windows. -/

namespace SourceBlocks

namespace TokenChunker

variable {counts : List Nat}

/-! ## One window -/

/-- A window is extended while its lines fit, so it stops before the first line that does not. -/
theorem extend_spec {size start last total : Nat} (hstart : start ≤ last)
    (hlast : last < counts.length) (htotal : total = rangeCost counts start (last + 1)) :
    let e := extend counts.toArray size last total
    (e = last ∨ rangeCost counts start (e + 1) ≤ size) ∧
      (e + 1 = counts.length ∨ size < rangeCost counts start (e + 2)) := by
  fun_induction extend counts.toArray size last total with
  | case1 last total hnext hfits ih =>
    have hnext' : last + 1 < counts.length := by simpa using hnext
    have htotal' : total + counts.toArray[last + 1] = rangeCost counts start (last + 1 + 1) := by
      rw [rangeCost_succ (by omega) hnext', htotal, List.getElem_toArray]
    obtain ⟨hcost, hfull⟩ := ih (by omega) hnext' htotal'
    refine ⟨?_, hfull⟩
    rcases hcost with heq | hle
    · right
      rw [heq, ← htotal']
      exact hfits
    · exact Or.inr hle
  | case2 last total hnext hexceeds =>
    have hnext' : last + 1 < counts.length := by simpa using hnext
    have hread : counts.toArray[last + 1] = counts[last + 1] := List.getElem_toArray hnext
    refine ⟨Or.inl rfl, Or.inr ?_⟩
    rw [rangeCost_succ (by omega) hnext', ← htotal]
    omega
  | case3 last total hend =>
    have hend' : ¬ last + 1 < counts.length := by simpa using hend
    exact ⟨Or.inl rfl, Or.inl (by omega)⟩

/-- From the end of a window the next one steps back as far as the overlap allows, and not to the
start of the window. -/
theorem stepBack_spec {overlap start next stop taken : Nat} (hnext : start < next)
    (hstop : next ≤ stop) (hlen : stop ≤ counts.length) (htaken : taken = rangeCost counts next stop)
    (hfits : taken ≤ overlap) :
    let r := stepBack counts.toArray overlap start next taken
    r ≤ next ∧ rangeCost counts r stop ≤ overlap ∧
      (r = start + 1 ∨ overlap < rangeCost counts (r - 1) stop) := by
  induction next generalizing taken with
  | zero => omega
  | succ next ih =>
    have hin : next < counts.length := by omega
    have hread : counts.toArray.getD next 0 = counts[next] := by simp [Array.getD, hin]
    have hmore : rangeCost counts next stop = counts[next] + taken := by
      rw [rangeCost_pred (by omega) hin, htaken]
    intro r
    by_cases hback : start < next ∧ taken + counts[next] ≤ overlap
    · have hr : r = stepBack counts.toArray overlap start next (taken + counts[next]) := by
        simp only [r, stepBack, hread, if_pos hback]
      obtain ⟨hle, hcost, hfull⟩ := ih hback.1 (by omega) (by omega) hback.2
      rw [← hr] at hle hcost hfull
      exact ⟨by omega, hcost, hfull⟩
    · have hr : r = next + 1 := by
        simp only [r, stepBack, hread, if_neg hback]
      rw [hr]
      refine ⟨Nat.le_refl _, htaken ▸ hfits, ?_⟩
      rw [Nat.add_sub_cancel]
      omega

/-! ## All windows -/

/-- One window follows another: the first is full, the second starts inside it or right behind it,
and they share all lines that the overlap has room for. -/
structure Follows (c : TokenChunker) (counts : List Nat) (v w : LineWindow) : Prop where
  starts : v.first < w.first
  joins : w.first ≤ v.last + 1
  stops : v.last ≤ w.last
  more : v.last + 1 < counts.length
  full : c.size < rangeCost counts v.first (v.last + 2)
  shared : rangeCost counts w.first (v.last + 1) ≤ c.overlap
  sharedMost : w.first = v.first + 1 ∨ c.overlap < rangeCost counts (w.first - 1) (v.last + 1)

/-- The windows cut the lines from `start` on: they go up to the last line, and only a window of one
line takes more than a window may. -/
structure Cuts (c : TokenChunker) (counts : List Nat) (start : Nat) (windows : List LineWindow) :
    Prop where
  none : windows = [] ↔ counts.length ≤ start
  first : ∀ w ∈ windows.head?, w.first = start
  last : ∀ w ∈ windows.getLast?, w.last + 1 = counts.length
  inside : ∀ w ∈ windows, w.first ≤ w.last ∧ w.last < counts.length
  fits : ∀ w ∈ windows, w.first = w.last ∨ rangeCost counts w.first (w.last + 1) ≤ c.size
  follows : windows.IsChain (c.Follows counts)

namespace Cuts

variable {c : TokenChunker} {start : Nat} {w : LineWindow} {rest : List LineWindow}

theorem single (hstart : w.first = start) (hin : w.first ≤ w.last)
    (hlast : w.last + 1 = counts.length)
    (hfits : w.first = w.last ∨ rangeCost counts w.first (w.last + 1) ≤ c.size) :
    c.Cuts counts start [w] where
  none := by
    refine iff_of_false (by simp) ?_
    omega
  first := by simpa using hstart
  last := by simpa using hlast
  inside := by
    simp only [List.mem_singleton, forall_eq]
    omega
  fits := by simpa using hfits
  follows := List.isChain_singleton w

theorem cons {next : Nat} (h : c.Cuts counts next rest) (hstart : w.first = start)
    (hin : w.first ≤ w.last)
    (hfits : w.first = w.last ∨ rangeCost counts w.first (w.last + 1) ≤ c.size)
    (hfollows : ∀ v ∈ rest.head?, c.Follows counts w v) (hmore : next < counts.length) :
    c.Cuts counts start (w :: rest) := by
  cases rest with
  | nil =>
    have hend := h.none.1 rfl
    omega
  | cons v rest =>
    have hv := hfollows v rfl
    have hlast : w.last < counts.length := by
      have := hv.more
      omega
    constructor
    · refine iff_of_false (by simp) ?_
      omega
    · simpa using hstart
    · intro u hu
      rw [List.getLast?_cons_cons] at hu
      exact h.last u hu
    · intro u hu
      rcases List.mem_cons.1 hu with rfl | hu
      · exact ⟨hin, hlast⟩
      · exact h.inside u hu
    · intro u hu
      rcases List.mem_cons.1 hu with rfl | hu
      · exact hfits
      · exact h.fits u hu
    · exact List.isChain_cons_cons.2 ⟨hv, h.follows⟩

theorem tail {v : LineWindow} (h : c.Cuts counts start (w :: v :: rest)) :
    c.Cuts counts v.first (v :: rest) where
  none := by
    have := h.inside v (by simp)
    refine iff_of_false (by simp) ?_
    omega
  first := by simp
  last u hu := h.last u (by rwa [List.getLast?_cons_cons])
  inside u hu := h.inside u (List.mem_cons_of_mem _ hu)
  fits u hu := h.fits u (List.mem_cons_of_mem _ hu)
  follows := (List.isChain_cons_cons.1 h.follows).2

end Cuts

/-- A window from `start` on stops at `last`: its lines fit, and the next one does not. -/
structure StopsAt (c : TokenChunker) (counts : List Nat) (start last : Nat) : Prop where
  le : start ≤ last
  inside : last < counts.length
  fits : start = last ∨ rangeCost counts start (last + 1) ≤ c.size
  full : last + 1 = counts.length ∨ c.size < rangeCost counts start (last + 2)

/-- Behind a window from `start` to before `stop` the next one starts at `next`: the lines shared
are within the overlap, and one more is not. -/
structure ResumesAt (c : TokenChunker) (counts : List Nat) (start stop next : Nat) : Prop where
  lt : start < next
  le : next ≤ stop
  shared : rangeCost counts next stop ≤ c.overlap
  most : next = start + 1 ∨ c.overlap < rangeCost counts (next - 1) stop

variable {c : TokenChunker} {start : Nat}

/-- Where a window stops is settled by its start. -/
theorem StopsAt.unique {last last' : Nat} (h : c.StopsAt counts start last)
    (h' : c.StopsAt counts start last') : last = last' := by
  have ⟨hle, hin, hfits, hfull⟩ := h
  have ⟨hle', hin', hfits', hfull'⟩ := h'
  rcases Nat.lt_trichotomy last last' with hlt | heq | hgt
  · have := rangeCost_mono counts (show start ≤ last + 2 by omega)
      (show last + 2 ≤ last' + 1 by omega)
    omega
  · exact heq
  · have := rangeCost_mono counts (show start ≤ last' + 2 by omega)
      (show last' + 2 ≤ last + 1 by omega)
    omega

/-- Where the next window starts is settled by the window before it. -/
theorem ResumesAt.unique {stop next next' : Nat} (h : c.ResumesAt counts start stop next)
    (h' : c.ResumesAt counts start stop next') : next = next' := by
  have ⟨hlt, hle, hshared, hmost⟩ := h
  have ⟨hlt', hle', hshared', hmost'⟩ := h'
  rcases Nat.lt_trichotomy next next' with hless | heq | hmore
  · have := rangeCost_add counts (show next ≤ next' - 1 by omega) (show next' - 1 ≤ stop by omega)
    omega
  · exact heq
  · have := rangeCost_add counts (show next' ≤ next - 1 by omega) (show next - 1 ≤ stop by omega)
    omega

theorem stopsAt_extend (c : TokenChunker) (h : start < counts.length) :
    c.StopsAt counts start (extend counts.toArray c.size start counts[start]) := by
  have hin := extend_lt counts.toArray c.size start counts[start] (by simpa using h)
  obtain ⟨hfits, hfull⟩ : (_ ∨ _ ≤ c.size) ∧ (_ ∨ c.size < _) :=
    extend_spec (Nat.le_refl start) h (rangeCost_one h).symm
  exact ⟨le_extend _ _ _ _, by simpa using hin, hfits.imp_left Eq.symm, hfull⟩

theorem resumesAt_stepBack (c : TokenChunker) {stop : Nat} (hstop : start < stop)
    (hlen : stop ≤ counts.length) :
    c.ResumesAt counts start stop (stepBack counts.toArray c.overlap start stop 0) := by
  obtain ⟨hle, hshared, hmost⟩ := stepBack_spec hstop (Nat.le_refl stop) hlen
    (rangeCost_self counts stop).symm (Nat.zero_le c.overlap)
  exact ⟨lt_stepBack _ _ _ _ _ hstop, hle, hshared, hmost⟩

/-- A window that starts where the overlap begins reaches at least as far as the one before: the
lines that are shared cost less than a window may. -/
theorem ResumesAt.reaches {last next e : Nat} (h : c.ResumesAt counts start (last + 1) next)
    (hlast : last < counts.length) (hnext : c.StopsAt counts next e) : last ≤ e := by
  have ⟨_, _, hshared, _⟩ := h
  have ⟨hin, _, _, hfull⟩ := hnext
  have hoverlap := c.overlap_lt
  by_contra hshort
  have := rangeCost_mono counts (show next ≤ e + 2 by omega) (show e + 2 ≤ last + 1 by omega)
  omega

theorem Follows.resumesAt {v w : LineWindow} (h : c.Follows counts v w) :
    c.ResumesAt counts v.first (v.last + 1) w.first :=
  ⟨h.starts, h.joins, h.shared, h.sharedMost⟩

/-- The first window takes as many lines as fit. -/
theorem Cuts.stopsAt {w : LineWindow} {rest : List LineWindow}
    (h : c.Cuts counts start (w :: rest)) : c.StopsAt counts start w.last := by
  obtain ⟨hle, hin⟩ := h.inside w List.mem_cons_self
  have hfits := h.fits w List.mem_cons_self
  obtain rfl : w.first = start := h.first w rfl
  refine ⟨hle, hin, hfits, ?_⟩
  cases rest with
  | nil => exact Or.inl (h.last w rfl)
  | cons v rest => exact Or.inr (List.isChain_cons_cons.1 h.follows).1.full

/-- The loops cut the lines as they should. -/
theorem cuts_windowsFrom (c : TokenChunker) (counts : List Nat) (start : Nat) :
    c.Cuts counts start (windowsFrom counts.toArray c start) := by
  fun_induction windowsFrom counts.toArray c start with
  | case1 start hin last ih =>
    have hstart : start < counts.length := by simpa using hin
    have hstop : c.StopsAt counts start last := stopsAt_extend c hstart
    have ⟨hle, hlast, hfits, hfull⟩ := hstop
    by_cases hend : last + 1 = counts.length
    · rw [if_pos (by simpa using hend)]
      exact .single rfl hle hend hfits
    · rw [if_neg (by simpa using hend)]
      have hnext := resumesAt_stepBack c (show start < last + 1 by omega)
        (show last + 1 ≤ counts.length by omega)
      have ⟨hlt, hjoin, hshared, hmost⟩ := hnext
      refine ih.cons rfl hle hfits (fun v hv => ?_) (by omega)
      -- the window that follows reaches at least as far, since it has room for what is shared
      have hfirst := ih.first v hv
      have hcut := ih
      rw [List.eq_cons_of_mem_head? hv] at hcut
      exact {
        starts := by rwa [hfirst]
        joins := by rwa [hfirst]
        stops := hnext.reaches hlast hcut.stopsAt
        more := by
          show last + 1 < counts.length
          omega
        full := hfull.resolve_left hend
        shared := by rwa [hfirst]
        sharedMost := by rwa [hfirst] }
  | case2 start hout =>
    exact {
      none := by simpa using hout
      first := by simp
      last := by simp
      inside := by simp
      fits := by simp
      follows := List.isChain_nil }

/-- There is only one way to cut the lines so. -/
theorem Cuts.eq_windowsFrom {windows : List LineWindow} (h : c.Cuts counts start windows) :
    windows = windowsFrom counts.toArray c start := by
  induction windows generalizing start with
  | nil =>
    have hend := h.none.1 rfl
    rw [windowsFrom, dif_neg (by simpa using hend)]
  | cons w rest ih =>
    have hstop := h.stopsAt
    have ⟨hle, hlast, _, _⟩ := hstop
    obtain rfl : w.first = start := h.first w rfl
    have hstart : w.first < counts.length := by omega
    have hw : extend counts.toArray c.size w.first counts[w.first] = w.last :=
      (stopsAt_extend c hstart).unique hstop
    rw [windowsFrom, dif_pos (by simpa using hstart)]
    simp only [List.getElem_toArray, hw, List.size_toArray]
    congr 1
    cases rest with
    | nil =>
      rw [if_pos (h.last w rfl)]
    | cons v rest =>
      have hv := (List.isChain_cons_cons.1 h.follows).1
      have hmore := hv.more
      have hnext : stepBack counts.toArray c.overlap w.first (w.last + 1) 0 = v.first :=
        (resumesAt_stepBack c (by omega) (by omega)).unique hv.resumesAt
      rw [if_neg (by omega), hnext]
      exact ih h.tail

end TokenChunker

end SourceBlocks
