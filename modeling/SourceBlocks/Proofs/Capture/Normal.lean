import Mathlib.Data.List.Forall2
import Mathlib.Data.List.Permutation
import Mathlib.Data.Prod.Lex
import SourceBlocks.Proofs.Capture.Bodies

/-! # Captures of records

Each record that captures more than names gives one capture, and every other record is passed over.
The captures come by range, those of one range in the order of their records, so the order of the
records matters within a range only. -/

namespace SourceBlocks

/-- The record captures more than names. -/
def Record.hasBody (r : Record) : Bool := r.any (·.1 != nameCapture)

namespace Capture

/-- The capture that a record stands for: the first of its captures that is no name, and the first
that is one. -/
structure Canonical (r : Record) (c : Capture) : Prop where
  body : ∃ before after, r = before ++ (c.type, c.body) :: after ∧ ∀ e ∈ before, e.1 = nameCapture
  type_ne : c.type ≠ nameCapture
  name : c.name = (r.filter (·.1 == nameCapture)).head?.map Prod.snd

theorem Canonical.find?_body {r : Record} {c : Capture} (h : Canonical r c) :
    r.find? (·.1 != nameCapture) = some (c.type, c.body) := by
  obtain ⟨before, after, hr, hbefore⟩ := h.body
  refine List.find?_eq_some_iff_append.2
    ⟨by simpa using h.type_ne, before, after, hr, fun e he => ?_⟩
  simp [hbefore e he]

theorem ofRecord?_eq_some_iff {r : Record} {c : Capture} :
    ofRecord? r = some c ↔ Canonical r c := by
  constructor
  · intro h
    rw [ofRecord?] at h
    split at h
    · contradiction
    case h_2 type body hfirst =>
      obtain rfl := Option.some.inj h
      obtain ⟨htype, before, after, hr, hbefore⟩ := List.find?_eq_some_iff_append.1 hfirst
      refine ⟨⟨before, after, hr, fun e he => ?_⟩, by simpa using htype, ?_⟩
      · simpa using hbefore e he
      · rw [List.head?_filter]
  · intro h
    rw [ofRecord?, h.find?_body, ← List.head?_filter, ← h.name]

theorem ofRecord?_isSome (r : Record) : (ofRecord? r).isSome = r.hasBody := by
  rw [Record.hasBody, ← List.isSome_find?, ofRecord?]
  cases r.find? (·.1 != nameCapture) <;> rfl

/-- One capture for each record that has a body, in the order of the records. -/
theorem canonical_filterMap (rs : List Record) :
    List.Forall₂ Canonical (rs.filter Record.hasBody) (rs.filterMap ofRecord?) := by
  induction rs with
  | nil => exact .nil
  | cons r rest ih =>
    have hbody := ofRecord?_isSome r
    cases h : ofRecord? r with
    | none =>
      rw [h] at hbody
      rw [List.filterMap_cons_none h, List.filter_cons_of_neg (by simp [← hbody])]
      exact ih
    | some c =>
      rw [h] at hbody
      rw [List.filterMap_cons_some h, List.filter_cons_of_pos (by simp [← hbody])]
      exact .cons (ofRecord?_eq_some_iff.1 h) ih

/-- The bytes of the body, as captures are ordered by them. -/
def range (c : Capture) : Nat ×ₗ Nat := toLex (c.body.start.byte, c.body.stop.byte)

theorem le_iff_range_le (a b : Capture) : a.le b = true ↔ a.range ≤ b.range := by
  simp only [le, range, Prod.Lex.toLex_le_toLex, Bool.or_eq_true, Bool.and_eq_true,
    decide_eq_true_eq, beq_iff_eq]

/-- The captures that were found, by range, and within a range as they were found. -/
structure ByRange (found captures : List Capture) : Prop where
  perm : captures.Perm found
  sorted : captures.Pairwise (·.range ≤ ·.range)
  ties : ∀ range, captures.filter (·.range == range) = found.filter (·.range == range)

theorem byRange_mergeSort (found : List Capture) : ByRange found (found.mergeSort le) where
  perm := List.mergeSort_perm found le
  sorted := (List.pairwise_mergeSort le_trans le_total found).imp fun h => (le_iff_range_le _ _).1 h
  ties := by
    intro range
    have hsame : (found.filter (·.range == range)).Pairwise (le · ·) := by
      refine List.pairwise_of_forall_mem_list fun a ha b hb => ?_
      have haRange : a.range = range := by simpa using (List.mem_filter.1 ha).2
      have hbRange : b.range = range := by simpa using (List.mem_filter.1 hb).2
      exact (le_iff_range_le a b).2 (haRange.trans hbRange.symm).le
    -- what is in order already stays in order, here all that was found with the range
    have hkept := (List.sublist_mergeSort le_trans le_total hsame List.filter_sublist).filter
      (·.range == range)
    simp only [List.filter_filter, Bool.and_self] at hkept
    exact (hkept.eq_of_length ((List.mergeSort_perm found le).filter _).length_eq.symm).symm

variable {found others captures sorted : List Capture}

/-- Of what was found in another order, only captures of one range come in another order. -/
theorem ByRange.perm_ties (h : ByRange found captures) (h' : ByRange others sorted)
    (hperm : found.Perm others) :
    sorted.map range = captures.map range ∧
      ∀ range, (sorted.filter (·.range == range)).Perm (captures.filter (·.range == range)) := by
  have hsorted : sorted.Perm captures := h'.perm.trans (hperm.symm.trans h.perm.symm)
  refine ⟨?_, fun range => hsorted.filter _⟩
  exact List.Perm.eq_of_pairwise (fun _ _ _ _ => le_antisymm) (List.pairwise_map.2 h'.sorted)
    (List.pairwise_map.2 h.sorted) (hsorted.map range)

/-- Captures of distinct ranges come in one order only. -/
theorem ByRange.eq_of_nodup (h : ByRange found captures) (h' : ByRange others sorted)
    (hperm : found.Perm others) (hnodup : (captures.map range).Nodup) : sorted = captures := by
  have hsorted : sorted.Perm captures := h'.perm.trans (hperm.symm.trans h.perm.symm)
  refine List.Perm.eq_of_pairwise (fun a b ha hb hab hba => ?_) h'.sorted h.sorted hsorted
  exact List.inj_on_of_nodup_map hnodup (hsorted.mem_iff.1 ha) hb (le_antisymm hab hba)

end Capture

namespace CaptureSet

/-- Normalization looks at each record only for the capture that it stands for. -/
theorem normalize_congr {set other : CaptureSet}
    (h : set.toRecords.map Capture.ofRecord? = other.toRecords.map Capture.ofRecord?) :
    set.normalize = other.normalize := by
  have htotal : set.toRecords.length = other.toRecords.length := by
    simpa using congrArg List.length h
  have hcaptures : set.toRecords.filterMap Capture.ofRecord? =
      other.toRecords.filterMap Capture.ofRecord? := by
    have hids := congrArg (List.filterMap id) h
    rwa [List.filterMap_map, List.filterMap_map] at hids
  have hskipped : set.toRecords.countP (fun r => !(Capture.ofRecord? r).isSome) =
      other.toRecords.countP (fun r => !(Capture.ofRecord? r).isSome) := by
    have hcounts := congrArg (List.countP (!·.isSome)) h
    rwa [List.countP_map, List.countP_map] at hcounts
  simp only [normalize, htotal, hcaptures, hskipped]

theorem byRange_normalize (set : CaptureSet) :
    Capture.ByRange (set.toRecords.filterMap Capture.ofRecord?) set.normalize.captures :=
  Capture.byRange_mergeSort _

/-- Each record gives a capture or is passed over. -/
theorem total_eq (set : CaptureSet) :
    set.normalize.total = set.normalize.captures.length + set.normalize.skipped := by
  have hfound := (byRange_normalize set).perm.length_eq
  rw [List.length_filterMap_eq_countP] at hfound
  have hall := List.length_eq_countP_add_countP (fun r => (Capture.ofRecord? r).isSome)
    (l := set.toRecords)
  simp only [Bool.not_eq_true, Bool.decide_eq_false] at hall
  rw [hfound]
  exact hall

theorem skipped_eq (set : CaptureSet) :
    set.normalize.skipped = set.toRecords.countP (!·.hasBody) := by
  refine List.countP_congr fun r _ => ?_
  rw [Capture.ofRecord?_isSome]

end CaptureSet

end SourceBlocks
