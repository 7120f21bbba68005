import Mathlib.Data.List.DropRight
import SourceBlocks.Text.Path

/-! # Pieces between separators

Splitting is the library's `List.splitOnP`, and its last piece is what follows the last separator. The
extension of a name without slashes follows its last dot, unless that is the first character or the
name leads upwards. -/

namespace SourceBlocks.Text

/-- A slash of either kind. -/
def isSeparator (c : Char) : Bool := c == '/' || c == '\\'

variable {p : Char → Bool} {cs xs ys : List Char} {c : Char}

theorem splitOn_eq_splitOnP (p : Char → Bool) (cs : List Char) : splitOn p cs = cs.splitOnP p := by
  induction cs with
  | nil => rfl
  | cons c cs ih =>
    obtain ⟨l, ls, hsplit⟩ := List.exists_cons_of_ne_nil (List.splitOnP_ne_nil p cs)
    rw [splitOn, List.foldr_cons, ← splitOn, ih, List.splitOnP_cons_eq_if_modifyHead, hsplit]
    rfl

/-- A list has no separator or a last one. -/
theorem separated_cases (p : Char → Bool) (cs : List Char) :
    (∀ c ∈ cs, p c = false) ∨
      ∃ xs c ys, cs = xs ++ c :: ys ∧ p c = true ∧ ∀ y ∈ ys, p y = false := by
  induction cs with
  | nil => exact .inl (by simp)
  | cons c cs ih =>
    rcases ih with hnone | ⟨xs, d, ys, rfl, hd, hys⟩
    · cases hc : p c with
      | true => exact .inr ⟨[], c, cs, rfl, hc, hnone⟩
      | false => exact .inl (by simpa [hc] using hnone)
    · exact .inr ⟨c :: xs, d, ys, rfl, hd, hys⟩

theorem rtakeWhile_append_cons (hc : p c = true) (hys : ∀ y ∈ ys, p y = false) :
    (xs ++ c :: ys).rtakeWhile (fun c => !p c) = ys := by
  have hall : ys.reverse.takeWhile (fun c => !p c) = ys.reverse :=
    List.takeWhile_eq_self_iff.2 (by simpa using hys)
  rw [List.rtakeWhile, List.reverse_append, List.reverse_cons, List.append_assoc,
    List.takeWhile_append, hall]
  simp [hc]

/-- The last piece is what follows the last separator. -/
theorem getLast?_splitOn (p : Char → Bool) (cs : List Char) :
    (splitOn p cs).getLast? = some (cs.rtakeWhile fun c => !p c) := by
  rw [splitOn_eq_splitOnP]
  rcases separated_cases p cs with hnone | ⟨xs, c, ys, rfl, hc, hys⟩
  · rw [List.splitOnP_eq_singleton hnone, List.rtakeWhile_eq_self_iff.2 (by simpa using hnone)]
    rfl
  · rw [List.splitOnP_append_cons xs ys hc, List.splitOnP_eq_singleton hys,
      rtakeWhile_append_cons hc hys]
    simp

/-! ## Extensions -/

/-- A character that does not occur separates nothing. -/
theorem splitOn_of_notMem (h : c ∉ cs) : splitOn (· == c) cs = [cs] := by
  rw [splitOn_eq_splitOnP]
  refine List.splitOnP_eq_singleton fun d hd => ?_
  rw [beq_eq_false_iff_ne]
  rintro rfl
  exact h hd

theorem fileName?_of_plain {name : String} (h : '/' ∉ name.toList) :
    fileName? name = if name = "" ∨ name = "." ∨ name = ".." then none else some name := by
  have hsegments : segments name = [name] := by
    rw [segments, splitOn_of_notMem h]
    simp
  rw [fileName?, components, hsegments]
  by_cases hempty : name = ""
  · subst hempty; rfl
  by_cases hdot : name = "."
  · subst hdot; rfl
  by_cases hup : name = ".."
  · subst hup; rfl
  simp [hempty, hdot, hup, Component.ofSegment?]

theorem nameExtension?_of_no_dot {name : String} (h : '.' ∉ name.toList) :
    nameExtension? name = none := by
  rw [nameExtension?, splitOn_of_notMem h]

/-- The last of several pieces is the extension, unless an empty one stands alone before it. -/
theorem nameExtension?_of_pieces {name : String} {pieces : List (List Char)} {ext : List Char}
    (hsplit : splitOn (· == '.') name.toList = pieces ++ [ext]) (hne : pieces ≠ [])
    (hstem : pieces ≠ [[]]) : nameExtension? name = some (String.ofList ext) := by
  have hlast : (pieces ++ [ext]).getLast?.map String.ofList = some (String.ofList ext) := by simp
  rw [nameExtension?, hsplit, ← hlast]
  cases pieces with
  | nil => exact absurd rfl hne
  | cons first rest =>
    cases rest with
    | nil =>
      cases first with
      | nil => exact absurd rfl hstem
      | cons c cs => rfl
    | cons second rest => cases rest <;> rfl

/-- What follows the last dot is the extension when something stands before that dot. -/
theorem nameExtension?_of_dot {stem ext : List Char} (hext : '.' ∉ ext) :
    nameExtension? (String.ofList (stem ++ '.' :: ext)) =
      if stem = [] then none else some (String.ofList ext) := by
  have hsplit : splitOn (· == '.') (stem ++ '.' :: ext) = splitOn (· == '.') stem ++ [ext] := by
    rw [← splitOn_of_notMem hext, splitOn_eq_splitOnP, splitOn_eq_splitOnP, splitOn_eq_splitOnP,
      List.splitOnP_append_cons stem ext rfl]
  rw [← String.toList_ofList (l := stem ++ '.' :: ext)] at hsplit
  cases stem with
  | nil =>
    rw [nameExtension?, hsplit]
    rfl
  | cons c cs =>
    rw [if_neg (List.cons_ne_nil c cs)]
    rw [splitOn_eq_splitOnP _ (c :: cs)] at hsplit
    refine nameExtension?_of_pieces hsplit (List.splitOnP_ne_nil _ _) fun hone => ?_
    -- joined with dots, the pieces are the stem again
    have hjoin : ['.'].intercalate ((c :: cs).splitOn '.') = c :: cs := List.intercalate_splitOn '.'
    rw [List.splitOn_eq_splitOnP, hone] at hjoin
    simp at hjoin

theorem extension?_of_no_dot {name : String} (hslash : '/' ∉ name.toList)
    (hdot : '.' ∉ name.toList) : extension? name = none := by
  rw [extension?, fileName?_of_plain hslash]
  split
  · rfl
  · exact nameExtension?_of_no_dot hdot

/-- The extension of a name without slashes follows the last dot of the name, and something stands
before that dot. -/
theorem extension?_of_dot {stem ext : List Char} (hslash : '/' ∉ stem ++ '.' :: ext)
    (hext : '.' ∉ ext) :
    extension? (String.ofList (stem ++ '.' :: ext)) =
      if stem = [] ∨ (stem = ['.'] ∧ ext = []) then none else some (String.ofList ext) := by
  have hempty : String.ofList (stem ++ '.' :: ext) ≠ "" := by simp [← String.toList_inj]
  have hdot : String.ofList (stem ++ '.' :: ext) = "." ↔ stem = [] ∧ ext = [] := by
    simp [← String.toList_inj, List.append_eq_cons_iff]
  have hup : String.ofList (stem ++ '.' :: ext) = ".." ↔ stem = ['.'] ∧ ext = [] := by
    have hnotDot : ext ≠ ['.'] := by
      rintro rfl
      exact hext (List.mem_singleton_self '.')
    rw [← String.toList_inj, String.toList_ofList]
    match stem with
    | [] => simp [hnotDot]
    | [c] => simp
    | _ :: _ :: _ => simp
  rw [extension?, fileName?_of_plain (by rwa [String.toList_ofList])]
  by_cases hnone : stem = [] ∨ (stem = ['.'] ∧ ext = [])
  · rw [if_pos hnone]
    rcases hnone with rfl | hparent
    · split
      · rfl
      · rw [Option.bind_some, nameExtension?_of_dot hext, if_pos rfl]
    · rw [if_pos (.inr (.inr (hup.2 hparent))), Option.bind_none]
  · rw [if_neg hnone]
    rw [not_or] at hnone
    have hname : ¬(String.ofList (stem ++ '.' :: ext) = "" ∨
        String.ofList (stem ++ '.' :: ext) = "." ∨ String.ofList (stem ++ '.' :: ext) = "..") := by
      rw [hdot, hup]
      exact fun h => h.elim hempty fun h => h.elim (fun h => hnone.1 h.1) hnone.2
    rw [if_neg hname, Option.bind_some, nameExtension?_of_dot hext, if_neg hnone.1]

theorem extension?_eq_some_iff {name ext : String} (hslash : '/' ∉ name.toList) :
    extension? name = some ext ↔ ∃ stem, name.toList = stem ++ '.' :: ext.toList ∧
      '.' ∉ ext.toList ∧ ¬(stem = [] ∨ (stem = ['.'] ∧ ext.toList = [])) := by
  constructor
  · intro h
    rcases separated_cases (· == '.') name.toList with hnone | ⟨stem, c, cs, hname, hc, hcs⟩
    · rw [extension?_of_no_dot hslash fun hmem => by simpa using hnone '.' hmem] at h
      simp at h
    · obtain rfl : c = '.' := beq_iff_eq.1 hc
      have hdot : '.' ∉ cs := fun hmem => by simpa using hcs '.' hmem
      rw [hname] at hslash
      rw [← String.ofList_toList (s := name), hname, extension?_of_dot hslash hdot] at h
      split at h
      case isTrue => simp at h
      case isFalse hstem =>
        obtain rfl := Option.some.inj h
        rw [String.toList_ofList]
        exact ⟨stem, hname, hdot, hstem⟩
  · rintro ⟨stem, hname, hdot, hstem⟩
    rw [hname] at hslash
    rw [← String.ofList_toList (s := name), hname, extension?_of_dot hslash hdot, if_neg hstem,
      String.ofList_toList]

end SourceBlocks.Text
