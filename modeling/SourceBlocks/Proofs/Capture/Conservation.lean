import SourceBlocks.Proofs.Capture.Groups
import SourceBlocks.Proofs.Capture.Streams

/-! # What normalization keeps

Whatever the shape of a result, no capture of it is lost on the way to its records, and none gets into
two of them. Of the records in turn each that has a body gives one capture, and the others are passed
over and counted. -/

namespace SourceBlocks

namespace CaptureSet

/-- The records of a result: those that it has, one for each match of a stream, or one for each of its
groups. -/
inductive Gives : CaptureSet → List Record → Prop
  | records (rs : List Record) : Gives (.records rs) rs
  | stream {captures : List StreamCapture} {numbered : List (Nat × Record)}
      (h : ByMatch captures numbered) : Gives (.stream captures) (numbered.map Prod.snd)
  | grouped {groups : List NodesByName} {rs : List Record}
      (h : List.Forall₂ NodesByName.SpelledOut groups rs) : Gives (.grouped groups) rs

theorem gives_toRecords (set : CaptureSet) : set.Gives set.toRecords := by
  cases set with
  | records rs => exact .records rs
  | stream captures => exact .stream (byMatch_foldl captures)
  | grouped groups =>
    have hspelled : ∀ g ∈ groups, g.SpelledOut g.toRecord := fun g _ => g.spelledOut_toRecord
    exact .grouped (List.forall₂_map_right_iff.2 (List.forall₂_same.2 hspelled))

/-- Every record is counted. Those with a body give the captures, one each, which come by range and
within a range in the order of the records; the others are passed over. The records are those that the
result gives: of a stream one for each match, with its captures, and of groups one for each, with its
nodes. Records in another order give the same counts, the same ranges, and for each range the same
captures up to their order: the very same result where no two bodies share a range. -/
theorem normalize_conserves :
    (∀ set : CaptureSet,
      let normal := set.normalize
      set.Gives set.toRecords ∧
      normal.total = set.toRecords.length ∧
      normal.total = normal.captures.length + normal.skipped ∧
      normal.skipped = set.toRecords.countP (!·.hasBody) ∧
      ∃ found, List.Forall₂ Capture.Canonical (set.toRecords.filter Record.hasBody) found ∧
        Capture.ByRange found normal.captures) ∧
    ∀ rs shuffled : List Record, rs.Perm shuffled →
      let normal := (CaptureSet.records rs).normalize
      let other := (CaptureSet.records shuffled).normalize
      other.total = normal.total ∧ other.skipped = normal.skipped ∧
      other.captures.map Capture.range = normal.captures.map Capture.range ∧
      (∀ range, (other.captures.filter (·.range == range)).Perm
        (normal.captures.filter (·.range == range))) ∧
      ((normal.captures.map Capture.range).Nodup → other = normal) := by
  refine ⟨fun set => ⟨gives_toRecords set, rfl, total_eq set, skipped_eq set, _,
    Capture.canonical_filterMap set.toRecords, byRange_normalize set⟩, ?_⟩
  intro rs shuffled hperm normal other
  have hfound := hperm.filterMap Capture.ofRecord?
  have hbefore : Capture.ByRange _ normal.captures := byRange_normalize (.records rs)
  have hafter : Capture.ByRange _ other.captures := byRange_normalize (.records shuffled)
  have htotal : other.total = normal.total := hperm.length_eq.symm
  have hskipped : other.skipped = normal.skipped := by
    rw [show other.skipped = _ from skipped_eq _, show normal.skipped = _ from skipped_eq _]
    exact (hperm.countP_eq _).symm
  obtain ⟨hranges, hties⟩ := hbefore.perm_ties hafter hfound
  refine ⟨htotal, hskipped, hranges, hties, fun hnodup => ?_⟩
  have hcaptures := hbefore.eq_of_nodup hafter hfound hnodup
  exact NormalCaptures.mk.injEq .. ▸ ⟨hcaptures, htotal, hskipped⟩

/-- Two bodies with the same bytes, one with others, a name alone, and a record of nothing. -/
def tiedRecords : List Record :=
  [[("name", .spot 0 4 5)], [("method", .spot 1 6 9), ("name", .spot 2 6 7)], [],
    [("function", .spot 3 0 5)], [("class", .spot 4 0 5)]]

/-- In reverse only the two bodies with the same bytes change places. -/
theorem normalize_conserves_tiedRecords :
    let normal := (CaptureSet.records tiedRecords).normalize
    let other := (CaptureSet.records tiedRecords.reverse).normalize
    tiedRecords.Perm tiedRecords.reverse ∧
      (normal.total, normal.skipped) = (5, 2) ∧
      normal.captures.map (·.type) = ["function", "class", "method"] ∧
      other.captures.map (·.type) = ["class", "function", "method"] ∧
      other.captures.map Capture.range = normal.captures.map Capture.range := by
  have hperm : tiedRecords.Perm tiedRecords.reverse := (List.reverse_perm _).symm
  refine ⟨hperm, ?_, ?_, ?_, (normalize_conserves.2 _ _ hperm).2.2.1⟩
  · cbv
  · cbv
  · cbv

end CaptureSet

end SourceBlocks
