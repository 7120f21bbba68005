import Mathlib.Data.List.Infix
import SourceBlocks.Text.Blank

/-! # Trimming a piece of a text

A piece of a text has no more left after trimming than the text around it. -/

namespace SourceBlocks.Text

variable {p : Char → Bool} {xs ys : List Char}

theorem isInfix_dropWhile (h : xs <:+: ys) : xs.dropWhile p <:+: ys.dropWhile p := by
  obtain ⟨before, after, rfl⟩ := h
  rw [List.append_assoc, List.dropWhile_append]
  by_cases hbefore : (before.dropWhile p).isEmpty = true
  · -- all that stands before is dropped too
    rw [if_pos hbefore, List.dropWhile_append]
    by_cases hxs : (xs.dropWhile p).isEmpty = true
    · rw [List.isEmpty_iff.1 hxs]
      exact List.nil_infix
    · rw [if_neg hxs]
      exact (List.prefix_append _ _).isInfix
  · rw [if_neg hbefore]
    apply (List.dropWhile_suffix p).isInfix.trans
    exact ⟨before.dropWhile p, after, by simp⟩

theorem stripEnds_isInfix (p : Char → Bool) (xs : List Char) : stripEnds p xs <:+: xs := by
  rw [stripEnds, ← List.reverse_infix, List.reverse_reverse]
  apply (List.dropWhile_suffix p).isInfix.trans
  rw [List.reverse_infix]
  exact (List.dropWhile_suffix p).isInfix

theorem isInfix_stripEnds (h : xs <:+: ys) : stripEnds p xs <:+: stripEnds p ys := by
  rw [stripEnds, stripEnds, List.reverse_infix]
  apply isInfix_dropWhile
  rw [List.reverse_infix]
  exact isInfix_dropWhile h

theorem dropWhile_of_head (h : ∀ c ∈ xs.head?, p c = false) : xs.dropWhile p = xs := by
  cases xs with
  | nil => rfl
  | cons c cs => rw [List.dropWhile_cons_of_neg (by simpa using h)]

/-- Where nothing stands at either end that could be taken away, nothing is. -/
theorem stripEnds_of_ends (hhead : ∀ c ∈ xs.head?, p c = false)
    (hlast : ∀ c ∈ xs.getLast?, p c = false) : stripEnds p xs = xs := by
  have hreverse : xs.reverse.dropWhile p = xs.reverse :=
    dropWhile_of_head (by rwa [List.head?_reverse])
  rw [stripEnds, dropWhile_of_head hhead, hreverse, List.reverse_reverse]

theorem trimmedLength_le (h : xs <:+: ys) : trimmedLength xs ≤ trimmedLength ys :=
  (isInfix_stripEnds h).length_le

theorem trimmedLength_pos {c : Char} (hc : c ∈ xs) (hblank : isBlank c = false) :
    0 < trimmedLength xs := by
  have hpiece : [c] <:+: xs := by
    obtain ⟨before, after, rfl⟩ := List.append_of_mem hc
    exact ⟨before, after, by simp⟩
  have hone : trimmedLength [c] = 1 := by
    simp [trimmedLength, stripEnds, hblank]
  have hle := trimmedLength_le hpiece
  omega

theorem trimmedLength_pos_iff : 0 < trimmedLength xs ↔ ∃ c ∈ xs, isBlank c = false := by
  constructor
  · intro hpos
    by_contra hnone
    have hall : xs.all isBlank = true := by simpa using hnone
    rw [trimmedLength, stripEnds_of_all hall] at hpos
    exact absurd hpos (by simp)
  · rintro ⟨c, hc, hblank⟩
    exact trimmedLength_pos hc hblank

/-- A piece between separators stands in what is joined. -/
theorem isInfix_intercalate {separator : List Char} {pieces : List (List Char)} {piece : List Char}
    (h : piece ∈ pieces) : piece <:+: List.intercalate separator pieces := by
  induction pieces with
  | nil => simp at h
  | cons first rest ih =>
    cases rest with
    | nil =>
      obtain rfl : piece = first := by simpa using h
      simp
    | cons second rest =>
      rw [List.intercalate_cons_cons]
      rcases List.mem_cons.1 h with rfl | hrest
      · rw [List.append_assoc]
        exact (List.prefix_append _ _).isInfix
      · exact (ih hrest).trans (List.suffix_append _ _).isInfix

end SourceBlocks.Text
