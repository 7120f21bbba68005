import Mathlib.Data.List.Induction
import SourceBlocks.Proofs.Capture.Normal

/-! # Records of a stream

A stream gives one record for each match, in the order in which the matches begin and with each
capture once. However the captures of some records are interleaved and repeated, the stream stands
for the same captures as the records. -/

namespace SourceBlocks

namespace Record

/-- The captures are of one node under one name. -/
def same (d e : String × Node) : Bool := d.1 == e.1 && d.2.id == e.2.id

/-- The record with one more capture, if it does not have that one. -/
def put (r : Record) (e : String × Node) : Record := if r.any (same · e) then r else r ++ [e]

/-- Each capture where it is first seen. -/
def distinct (r : Record) : Record := r.foldl put []

theorem distinct_concat (r : Record) (e : String × Node) :
    distinct (r ++ [e]) = put (distinct r) e := by
  rw [distinct, List.foldl_append]
  rfl

/-- The record has those of the captures that are the first of their like, in their order. -/
structure DistinctOf (captures r : Record) : Prop where
  mem_iff : ∀ e, e ∈ r ↔ captures.find? (same e) = some e
  order : r.Pairwise fun d e => captures.findIdx (same d) < captures.findIdx (same e)

theorem same_self (e : String × Node) : same e e = true := by
  rw [same, beq_self_eq_true, beq_self_eq_true]
  rfl

theorem same_eq_of_same {d e : String × Node} (h : same d e = true) : same d = same e := by
  obtain ⟨hname, hid⟩ := Bool.and_eq_true_iff.1 h
  funext x
  rw [same, same, eq_of_beq hname, eq_of_beq hid]

theorem same_comm (d e : String × Node) : same d e = same e d := by
  rw [same, same, Bool.beq_comm, Bool.beq_comm (a := d.2.id)]

section Put

variable {captures r : Record}

theorem DistinctOf.any_same (h : DistinctOf captures r) (e : String × Node) :
    r.any (same · e) = (captures.find? (same e)).isSome := by
  rw [Bool.eq_iff_iff, List.any_eq_true, Option.isSome_iff_exists]
  constructor
  · rintro ⟨d, hd, hsame⟩
    exact ⟨d, same_eq_of_same hsame ▸ (h.mem_iff d).1 hd⟩
  · rintro ⟨d, hfirst⟩
    have hsame : same d e = true := (same_comm d e).trans (List.find?_some hfirst)
    exact ⟨d, (h.mem_iff d).2 ((same_eq_of_same hsame).symm ▸ hfirst), hsame⟩

theorem findIdx_same_lt {d : String × Node} (hd : captures.find? (same d) = some d) :
    captures.findIdx (same d) < captures.length :=
  List.findIdx_lt_length.2 ⟨d, List.mem_of_find?_eq_some hd, same_self d⟩

theorem findIdx_concat {d : String × Node} (hd : captures.find? (same d) = some d)
    (e : String × Node) : (captures ++ [e]).findIdx (same d) = captures.findIdx (same d) := by
  rw [List.findIdx_append, if_pos (findIdx_same_lt hd)]

theorem DistinctOf.order_concat (h : DistinctOf captures r) (e : String × Node) :
    r.Pairwise fun a b =>
      (captures ++ [e]).findIdx (same a) < (captures ++ [e]).findIdx (same b) := by
  refine h.order.imp_of_mem fun ha hb hlt => ?_
  rwa [findIdx_concat ((h.mem_iff _).1 ha), findIdx_concat ((h.mem_iff _).1 hb)]

/-- A capture like an earlier one changes nothing. -/
theorem DistinctOf.again (h : DistinctOf captures r) {e first : String × Node}
    (hseen : captures.find? (same e) = some first) : DistinctOf (captures ++ [e]) r := by
  refine ⟨fun d => ?_, h.order_concat e⟩
  rw [h.mem_iff, List.find?_append]
  cases hd : captures.find? (same d) with
  | some _ => rfl
  | none =>
    have hother : same d e = false := by
      rw [Bool.eq_false_iff]
      intro hsame
      rw [same_eq_of_same hsame, hseen] at hd
      contradiction
    simp [hother]

/-- The first capture of its like comes behind all others. -/
theorem DistinctOf.next (h : DistinctOf captures r) {e : String × Node}
    (hnew : captures.find? (same e) = none) : DistinctOf (captures ++ [e]) (r ++ [e]) := by
  constructor
  · intro d
    rw [List.mem_append, List.mem_singleton, h.mem_iff, List.find?_append]
    by_cases hsame : same d e = true
    · rw [same_eq_of_same hsame, hnew]
      simp [same_self, eq_comm]
    · have hne : d ≠ e := by
        rintro rfl
        exact hsame (same_self d)
      simp [hsame, hne]
  · refine List.pairwise_append.2 ⟨h.order_concat e, List.pairwise_singleton .., ?_⟩
    intro d hd last hlast
    have hfirst := (h.mem_iff d).1 hd
    have hlt := findIdx_same_lt hfirst
    have hend : captures.findIdx (same e) = captures.length :=
      List.findIdx_eq_length.2 fun x hx => Bool.eq_false_iff.2 (List.find?_eq_none.1 hnew x hx)
    rw [List.mem_singleton.1 hlast, findIdx_concat hfirst, List.findIdx_append, hend,
      if_neg (Nat.lt_irrefl _)]
    omega

theorem DistinctOf.put (h : DistinctOf captures r) (e : String × Node) :
    DistinctOf (captures ++ [e]) (r.put e) := by
  rw [Record.put, h.any_same]
  cases hfirst : captures.find? (same e) with
  | some first => exact h.again hfirst
  | none => exact h.next hfirst

end Put

/-- Each capture is kept where it is first seen. -/
theorem distinctOf_distinct (captures : Record) : DistinctOf captures (distinct captures) := by
  induction captures using List.reverseRecOn with
  | nil => exact ⟨fun e => by simp [distinct], List.Pairwise.nil⟩
  | append_singleton captures e ih =>
    rw [distinct_concat]
    exact ih.put e

/-- A capture that is left out hides behind one of the same name. -/
theorem find?_put (p : String → Bool) (r : Record) (e : String × Node) :
    (put r e).find? (fun d => p d.1) = (r ++ [e]).find? (fun d => p d.1) := by
  rw [put]
  split
  case isFalse => rfl
  case isTrue h =>
    obtain ⟨d, hd, hsame⟩ := List.any_eq_true.1 h
    have hname : d.1 = e.1 := eq_of_beq (Bool.and_eq_true_iff.1 hsame).1
    rw [List.find?_append]
    cases hfound : r.find? (fun d => p d.1) with
    | some _ => rfl
    | none =>
      have hnone : p e.1 = false := by simpa [hname] using List.find?_eq_none.1 hfound d hd
      simp [hnone]

theorem find?_distinct (p : String → Bool) (r : Record) :
    (distinct r).find? (fun d => p d.1) = r.find? (fun d => p d.1) := by
  induction r using List.reverseRecOn with
  | nil => rfl
  | append_singleton r e ih =>
    rw [distinct_concat, find?_put, List.find?_append, ih, List.find?_append]

end Record

/-- The capture that a record stands for is found by names. -/
theorem Capture.ofRecord?_congr {r s : Record}
    (h : ∀ p : String → Bool, r.find? (fun d => p d.1) = s.find? (fun d => p d.1)) :
    ofRecord? r = ofRecord? s := by
  rw [ofRecord?, ofRecord?, h (· != nameCapture), h (· == nameCapture)]

/-! ## First sight -/

theorem eraseDups_concat (ids : List Nat) (id : Nat) :
    (ids ++ [id]).eraseDups = if id ∈ ids then ids.eraseDups else ids.eraseDups ++ [id] := by
  rw [List.eraseDups_append]
  by_cases h : id ∈ ids
  · simp [List.removeAll, h]
  · simp [List.removeAll, h, List.eraseDups_cons]

/-- The members of a list without its repetitions come as they come first in the list. -/
theorem eraseDups_pairwise (ids : List Nat) :
    ids.eraseDups.Pairwise fun a b => ids.idxOf a < ids.idxOf b := by
  induction ids using List.reverseRecOn with
  | nil => simp
  | append_singleton ids id ih =>
    have hold : ids.eraseDups.Pairwise fun a b =>
        (ids ++ [id]).idxOf a < (ids ++ [id]).idxOf b := by
      refine ih.imp_of_mem fun ha hb h => ?_
      rw [List.mem_eraseDups] at ha hb
      rwa [List.idxOf_append_of_mem ha, List.idxOf_append_of_mem hb]
    rw [eraseDups_concat]
    split
    · exact hold
    case isFalse hnew =>
      refine List.pairwise_append.2 ⟨hold, List.pairwise_singleton .., fun a ha b hb => ?_⟩
      rw [List.mem_singleton.1 hb, List.idxOf_append_of_mem (List.mem_eraseDups.1 ha),
        List.idxOf_append_of_notMem hnew]
      have := List.idxOf_lt_length_of_mem (List.mem_eraseDups.1 ha)
      omega

theorem nodup_eraseDups (ids : List Nat) : ids.eraseDups.Nodup :=
  (eraseDups_pairwise ids).imp fun h heq => absurd h (by simp [heq])

/-- Names that come as they come first in a list, and all of its names, are the list without its
repetitions. -/
theorem eraseDups_eq {ids keys : List Nat} (hmem : ∀ id, id ∈ ids ↔ id ∈ keys)
    (hkeys : keys.Pairwise fun a b => ids.idxOf a < ids.idxOf b) : ids.eraseDups = keys := by
  have hnodup : keys.Nodup := hkeys.imp fun h heq => absurd h (by simp [heq])
  have hperm : ids.eraseDups.Perm keys := by
    refine (List.perm_ext_iff_of_nodup (nodup_eraseDups ids) hnodup).2 fun id => ?_
    rw [List.mem_eraseDups, hmem]
  exact hperm.eq_of_pairwise (fun a b _ _ hab hba => by omega) (eraseDups_pairwise ids) hkeys

/-! ## Matches of a stream -/

namespace StreamCapture

def entry (c : StreamCapture) : String × Node := (c.name, c.node)

/-- The captures of one match. -/
def ofMatch (id : Nat) (stream : List StreamCapture) : Record :=
  (stream.filter (·.matchId == id)).map entry

theorem ofMatch_concat (id : Nat) (stream : List StreamCapture) (c : StreamCapture) :
    ofMatch id (stream ++ [c]) =
      if id = c.matchId then ofMatch id stream ++ [c.entry] else ofMatch id stream := by
  by_cases h : id = c.matchId
  · simp [ofMatch, h]
  · simp [ofMatch, h, Ne.symm h]

/-- The matches in the order in which they begin. -/
def matchIds (stream : List StreamCapture) : List Nat := (stream.map (·.matchId)).eraseDups

theorem matchIds_concat (stream : List StreamCapture) (c : StreamCapture) :
    matchIds (stream ++ [c]) =
      if c.matchId ∈ matchIds stream then matchIds stream else matchIds stream ++ [c.matchId] := by
  rw [matchIds, List.map_append, List.map_singleton, eraseDups_concat]
  simp only [matchIds, List.mem_eraseDups]

theorem ofMatch_of_notMem {id : Nat} {stream : List StreamCapture} (h : id ∉ matchIds stream) :
    ofMatch id stream = [] := by
  have hnone : stream.filter (·.matchId == id) = [] := by
    refine List.filter_eq_nil_iff.2 fun c hc hsame => h ?_
    rw [matchIds, List.mem_eraseDups, ← eq_of_beq hsame]
    exact List.mem_map_of_mem hc
  rw [ofMatch, hnone, List.map_nil]

end StreamCapture

open StreamCapture

theorem addToMatch_cons (c : StreamCapture) (id : Nat) (r : Record) (rest : List (Nat × Record)) :
    addToMatch c ((id, r) :: rest) =
      if id = c.matchId then (id, r.put c.entry) :: rest else (id, r) :: addToMatch c rest := by
  have hsame : r.any (fun p => p.1 == c.name && p.2.id == c.node.id) =
      r.any (Record.same · c.entry) := rfl
  rw [addToMatch, Record.put, hsame]
  cases r.any (Record.same · c.entry) with
  | true => simp
  | false => simp [entry]

/-- A capture of a new match begins a record at the end. -/
theorem addToMatch_of_notMem (c : StreamCapture) (f : Nat → Record) {ids : List Nat}
    (h : c.matchId ∉ ids) :
    addToMatch c (ids.map fun id => (id, f id)) =
      ids.map (fun id => (id, f id)) ++ [(c.matchId, [c.entry])] := by
  induction ids with
  | nil => rfl
  | cons id rest ih =>
    rw [List.mem_cons, not_or] at h
    rw [List.map_cons, addToMatch_cons, if_neg (Ne.symm h.1), ih h.2]
    rfl

/-- A capture of a match that has begun goes to its record and to no other. -/
theorem addToMatch_of_mem (c : StreamCapture) (f : Nat → Record) {ids : List Nat}
    (hids : ids.Nodup) (h : c.matchId ∈ ids) :
    addToMatch c (ids.map fun id => (id, f id)) =
      ids.map fun id => (id, if id = c.matchId then (f id).put c.entry else f id) := by
  induction ids with
  | nil => contradiction
  | cons id rest ih =>
    obtain ⟨hid, hrest⟩ := List.nodup_cons.1 hids
    rw [List.map_cons, addToMatch_cons, List.map_cons]
    by_cases heq : id = c.matchId
    · rw [if_pos heq, if_pos heq]
      refine congrArg _ (List.map_congr_left fun other hother => ?_)
      have hne : other ≠ c.matchId := fun hsame => hid (heq.trans hsame.symm ▸ hother)
      rw [if_neg hne]
    · have hmem : c.matchId ∈ rest := (List.mem_cons.1 h).resolve_left (Ne.symm heq)
      rw [if_neg heq, if_neg heq, ih hrest hmem]

namespace CaptureSet

theorem foldl_addToMatch (stream : List StreamCapture) :
    stream.foldl (fun groups c => addToMatch c groups) [] =
      (matchIds stream).map fun id => (id, (ofMatch id stream).distinct) := by
  -- by the last capture, since the fold has the groups of all captures before it
  induction stream using List.reverseRecOn with
  | nil => rfl
  | append_singleton stream c ih =>
    have hrecord : ∀ id, (ofMatch id (stream ++ [c])).distinct =
        if id = c.matchId then (ofMatch id stream).distinct.put c.entry
        else (ofMatch id stream).distinct := by
      intro id
      rw [ofMatch_concat, apply_ite Record.distinct, Record.distinct_concat]
    simp only [hrecord]
    rw [List.foldl_append, ih, List.foldl_cons, List.foldl_nil, matchIds_concat]
    split
    case isTrue hold =>
      exact addToMatch_of_mem c _ (nodup_eraseDups _) hold
    case isFalse hnew =>
      rw [addToMatch_of_notMem c _ hnew, List.map_append, List.map_singleton, if_pos rfl,
        ofMatch_of_notMem hnew]
      congr 1
      refine List.map_congr_left fun id hid => ?_
      rw [if_neg (ne_of_mem_of_not_mem hid hnew)]

/-- The stream is sorted into one record for each of its matches, beside the number of the match and in
the order in which the matches begin. A record has the captures of its own match, each once. -/
structure ByMatch (stream : List StreamCapture) (numbered : List (Nat × Record)) : Prop where
  mem_iff : ∀ id, id ∈ numbered.map Prod.fst ↔ ∃ c ∈ stream, c.matchId = id
  begins : (numbered.map Prod.fst).Pairwise fun a b =>
    (stream.map (·.matchId)).idxOf a < (stream.map (·.matchId)).idxOf b
  own : ∀ m ∈ numbered, Record.DistinctOf (ofMatch m.1 stream) m.2

theorem byMatch_foldl (stream : List StreamCapture) :
    ByMatch stream (stream.foldl (fun groups c => addToMatch c groups) []) := by
  have hids : ((matchIds stream).map fun id => (id, (ofMatch id stream).distinct)).map Prod.fst =
      matchIds stream := by
    rw [List.map_map]
    exact List.map_id' _
  rw [foldl_addToMatch]
  constructor
  · intro id
    rw [hids, matchIds, List.mem_eraseDups, List.mem_map]
  · rw [hids]
    exact eraseDups_pairwise _
  · intro m hm
    obtain ⟨id, -, rfl⟩ := List.mem_map.1 hm
    exact Record.distinctOf_distinct _

/-- A stream gives one record for each of its matches, with each capture of the match once. -/
theorem toRecords_stream (stream : List StreamCapture) :
    (CaptureSet.stream stream).toRecords =
      (matchIds stream).map fun id => (ofMatch id stream).distinct := by
  rw [toRecords, foldl_addToMatch, List.map_map]
  rfl

end CaptureSet

/-! ## Interleaved records -/

/-- The captures of a record given out in their order, any of them again once it is out. -/
inductive GivenOut : Record → Record → Prop
  | nil : GivenOut [] []
  | next {r s : Record} (e : String × Node) (h : GivenOut r s) : GivenOut (r ++ [e]) (s ++ [e])
  | again {r s : Record} {e : String × Node} (h : GivenOut r s) (he : e ∈ r) : GivenOut r (s ++ [e])

theorem GivenOut.ne_nil {r s : Record} (h : GivenOut r s) (hr : r ≠ []) : s ≠ [] := by
  cases h with
  | nil => contradiction
  | next => simp
  | again => simp

theorem GivenOut.find?_eq {r s : Record} (h : GivenOut r s) (p : String × Node → Bool) :
    s.find? p = r.find? p := by
  induction h with
  | nil => rfl
  | next e _ ih => rw [List.find?_append, List.find?_append, ih]
  | @again r s e _ he ih =>
    rw [List.find?_append, ih]
    cases hfound : r.find? p with
    | some _ => rfl
    | none => simpa using List.find?_eq_none.1 hfound e he

/-- What a stream gives out for a match stands for the same capture as its record. -/
theorem GivenOut.ofRecord?_eq {r s : Record} (h : GivenOut r s) :
    Capture.ofRecord? s.distinct = Capture.ofRecord? r :=
  Capture.ofRecord?_congr fun p => (Record.find?_distinct p s).trans (h.find?_eq _)

theorem GivenOut.typed {r s : Record} (h : GivenOut r s) :
    GivenOut (CaptureSet.typed r) (CaptureSet.typed s) := by
  induction h with
  | nil => exact .nil
  | next e _ ih => simpa [CaptureSet.typed] using ih.next (captureType e.1, e.2)
  | again _ he ih => simpa [CaptureSet.typed] using ih.again (List.mem_map_of_mem he)

/-- The stream gives out the captures of these records and of no others. The records have captures,
and the first capture of each comes after the first of those before it in the list, so that no two
records go by one number. -/
structure Interleaves (matched : List (Nat × Record)) (stream : List StreamCapture) : Prop where
  nonempty : ∀ m ∈ matched, m.2 ≠ []
  known : ∀ c ∈ stream, c.matchId ∈ matched.map Prod.fst
  givenOut : ∀ m ∈ matched, GivenOut m.2 (StreamCapture.ofMatch m.1 stream)
  begins : (matched.map Prod.fst).Pairwise fun a b =>
    (stream.map (·.matchId)).idxOf a < (stream.map (·.matchId)).idxOf b

namespace Interleaves

variable {matched : List (Nat × Record)} {stream : List StreamCapture}

theorem matchIds_eq (h : Interleaves matched stream) :
    StreamCapture.matchIds stream = matched.map Prod.fst := by
  refine eraseDups_eq (fun id => ⟨fun hid => ?_, fun hid => ?_⟩) h.begins
  · obtain ⟨c, hc, rfl⟩ := List.mem_map.1 hid
    exact h.known c hc
  · obtain ⟨m, hm, rfl⟩ := List.mem_map.1 hid
    by_contra hnone
    have hnothing : StreamCapture.ofMatch m.1 stream = [] :=
      StreamCapture.ofMatch_of_notMem (by rwa [StreamCapture.matchIds, List.mem_eraseDups])
    exact (h.givenOut m hm).ne_nil (h.nonempty m hm) hnothing

theorem normalize_eq (h : Interleaves matched stream) :
    (CaptureSet.stream stream).normalize =
      (CaptureSet.records (matched.map Prod.snd)).normalize := by
  refine CaptureSet.normalize_congr ?_
  rw [CaptureSet.toRecords_stream, h.matchIds_eq, CaptureSet.toRecords, List.map_map, List.map_map,
    List.map_map]
  exact List.map_congr_left fun m hm => (h.givenOut m hm).ofRecord?_eq

/-- Typing the names of all captures types the records. -/
theorem typed (h : Interleaves matched stream) :
    Interleaves (matched.map fun m => (m.1, CaptureSet.typed m.2))
      (stream.map fun c => { c with name := captureType c.name }) := by
  have hkeys : (matched.map fun m => (m.1, CaptureSet.typed m.2)).map Prod.fst =
      matched.map Prod.fst := by
    rw [List.map_map]
    rfl
  have hids : (stream.map fun c => { c with name := captureType c.name }).map (·.matchId) =
      stream.map (·.matchId) := by
    rw [List.map_map]
    rfl
  have hrecord : ∀ id, StreamCapture.ofMatch id
      (stream.map fun c => { c with name := captureType c.name }) =
        CaptureSet.typed (StreamCapture.ofMatch id stream) := by
    intro id
    rw [StreamCapture.ofMatch, StreamCapture.ofMatch, CaptureSet.typed, List.filter_map,
      List.map_map, List.map_map]
    rfl
  refine ⟨fun m hm => ?_, fun c hc => ?_, fun m hm => ?_, ?_⟩
  · obtain ⟨plain, hplain, rfl⟩ := List.mem_map.1 hm
    simpa [CaptureSet.typed] using h.nonempty plain hplain
  · obtain ⟨plain, hplain, rfl⟩ := List.mem_map.1 hc
    rw [hkeys]
    exact h.known plain hplain
  · obtain ⟨plain, hplain, rfl⟩ := List.mem_map.1 hm
    rw [hrecord]
    exact (h.givenOut plain hplain).typed
  · rw [hkeys, hids]
    exact h.begins

end Interleaves

/-- A stream that interleaves the captures of some records, repeating what it has given out or not,
is normalized as the records are: to the same captures in the same order and with the same counts. So
it is when the names that a query captured are made types first. -/
theorem normalize_interleaved {matched : List (Nat × Record)} {stream : List StreamCapture}
    (h : Interleaves matched stream) :
    (CaptureSet.stream stream).normalize =
        (CaptureSet.records (matched.map Prod.snd)).normalize ∧
      (CaptureSet.ofStream stream).normalize =
        (CaptureSet.ofMatches (matched.map Prod.snd)).normalize := by
  refine ⟨h.normalize_eq, ?_⟩
  have htyped := h.typed.normalize_eq
  rw [List.map_map] at htyped
  rw [CaptureSet.ofMatches, List.map_map]
  exact htyped

/-- A node without children on the first line. -/
def Node.spot (id start stop : Nat) : Node :=
  mk ⟨id, "identifier", none, true, ⟨start, 0, start⟩, ⟨stop, 0, stop⟩⟩ []

/-- A class and a function that overlap, and a name without a body. -/
def overlappingRecords : List (Nat × Record) :=
  [(7, [("class", .spot 0 0 9), ("name", .spot 1 6 7)]),
    (3, [("function", .spot 2 0 9), ("name", .spot 3 4 5)]),
    (5, [("name", .spot 4 20 21)])]

/-- Their captures in turns, the class and the function twice. -/
def overlappingStream : List StreamCapture :=
  [⟨7, "class", .spot 0 0 9⟩, ⟨3, "function", .spot 2 0 9⟩,
    ⟨7, "class", .spot 0 0 9⟩, ⟨3, "name", .spot 3 4 5⟩,
    ⟨5, "name", .spot 4 20 21⟩, ⟨3, "function", .spot 2 0 9⟩,
    ⟨7, "name", .spot 1 6 7⟩]

theorem overlappingStream_interleaves : Interleaves overlappingRecords overlappingStream where
  nonempty := by decide
  known := by decide
  givenOut := by
    refine List.forall_mem_cons.2 ⟨?_, List.forall_mem_cons.2 ⟨?_, List.forall_mem_singleton.2 ?_⟩⟩
    · exact ((GivenOut.nil.next _).again List.mem_cons_self).next _
    · exact ((GivenOut.nil.next _).next _).again List.mem_cons_self
    · exact GivenOut.nil.next _
  begins := by decide

/-- The class and the function lie over the same bytes and come in the order of their records. -/
theorem normalize_interleaved_overlapping :
    let normal := (CaptureSet.stream overlappingStream).normalize
    Interleaves overlappingRecords overlappingStream ∧
      normal = (CaptureSet.records (overlappingRecords.map Prod.snd)).normalize ∧
      (normal.total, normal.skipped) = (3, 1) ∧
      normal.captures.map (fun c => (c.type, c.name.map (·.id), c.body.id)) =
        [("class", some 1, 0), ("function", some 3, 2)] := by
  refine ⟨overlappingStream_interleaves,
    (normalize_interleaved overlappingStream_interleaves).1, ?_, ?_⟩
  · decide +kernel
  · cbv

end SourceBlocks
