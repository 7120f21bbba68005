import Mathlib.Data.String.Basic
import SourceBlocks.Proofs.Capture.Declaring
import SourceBlocks.Proofs.Capture.Normal

/-! # Records grouped by name

Grouping the captures of a record by name sorts them by name and keeps the captures of one name in
their order. The body of the grouped record is then the first capture of the least name, and not the
first capture of the record. -/

namespace SourceBlocks

namespace NodesByName

/-- The names of the groups increase. -/
def Sorted (g : NodesByName) : Prop := g.Pairwise fun a b => a.1 < b.1

theorem mem_add {name : String} {nodes : List Node} {g : NodesByName} {e : String × List Node}
    (h : e ∈ g.add name nodes) : e.1 = name ∨ ∃ d ∈ g, d.1 = e.1 := by
  induction g with
  | nil =>
    obtain rfl := List.mem_singleton.1 h
    exact Or.inl rfl
  | cons d rest ih =>
    rw [add] at h
    split at h
    case isTrue heq =>
      rcases List.mem_cons.1 h with rfl | h
      · exact Or.inl heq
      · exact Or.inr ⟨e, List.mem_cons_of_mem _ h, rfl⟩
    case isFalse =>
      split at h
      · rcases List.mem_cons.1 h with rfl | h
        · exact Or.inl rfl
        · exact Or.inr ⟨e, h, rfl⟩
      · rcases List.mem_cons.1 h with rfl | h
        · exact Or.inr ⟨_, List.mem_cons_self, rfl⟩
        · exact (ih h).imp_right fun ⟨d, hd, hsame⟩ => ⟨d, List.mem_cons_of_mem _ hd, hsame⟩

theorem Sorted.add {g : NodesByName} (h : g.Sorted) (name : String) (nodes : List Node) :
    (g.add name nodes).Sorted := by
  induction g with
  | nil => exact List.pairwise_singleton _ _
  | cons d rest ih =>
    obtain ⟨hfirst, hrest⟩ := List.pairwise_cons.1 h
    rw [NodesByName.add]
    split
    case isTrue => exact List.pairwise_cons.2 ⟨hfirst, hrest⟩
    case isFalse hne =>
      split
      case isTrue hlt =>
        refine List.pairwise_cons.2 ⟨fun e he => ?_, h⟩
        rcases List.mem_cons.1 he with rfl | he
        · exact hlt
        · exact hlt.trans (hfirst e he)
      case isFalse hnlt =>
        have hlt : d.1 < name := lt_of_le_of_ne (not_lt.1 hnlt) hne
        refine List.pairwise_cons.2 ⟨fun e he => ?_, ih hrest⟩
        rcases mem_add he with hname | ⟨other, hother, hsame⟩
        · exact hname ▸ hlt
        · exact hsame ▸ hfirst other hother

theorem filter_toRecord_of_lt {name : String} {g : NodesByName} (h : ∀ e ∈ g, name < e.1) :
    (toRecord g).filter (·.1 == name) = [] := by
  refine List.filter_eq_nil_iff.2 fun e he hname => ?_
  obtain ⟨d, hd, he⟩ := List.mem_flatMap.1 he
  obtain ⟨node, -, rfl⟩ := List.mem_map.1 he
  have hsame : d.1 = name := eq_of_beq hname
  exact lt_irrefl name (hsame ▸ h d hd)

theorem filter_toRecord_cons (d : String × List Node) (rest : NodesByName) (name : String) :
    (toRecord (d :: rest)).filter (·.1 == name) =
      (if d.1 = name then d.2.map (name, ·) else []) ++ (toRecord rest).filter (·.1 == name) := by
  have hgroup : (d.2.map (d.1, ·)).filter (·.1 == name) =
      if d.1 = name then d.2.map (name, ·) else [] := by
    by_cases h : d.1 = name
    · simp [List.filter_map, Function.comp_def, h]
    · simp [List.filter_map, Function.comp_def, h]
  rw [toRecord, List.flatMap_cons, List.filter_append, hgroup]
  rfl

/-- A capture is put behind those of its name. -/
theorem filter_toRecord_add {g : NodesByName} (h : g.Sorted) (name : String) (nodes : List Node)
    (other : String) :
    (toRecord (g.add name nodes)).filter (·.1 == other) =
      (toRecord g).filter (·.1 == other) ++ if name = other then nodes.map (other, ·) else [] := by
  induction g with
  | nil => exact (filter_toRecord_cons (name, nodes) [] other).trans (List.append_nil _)
  | cons d rest ih =>
    obtain ⟨hfirst, hrest⟩ := List.pairwise_cons.1 h
    rw [add]
    split
    case isTrue heq =>
      rw [filter_toRecord_cons, filter_toRecord_cons]
      by_cases hname : name = other
      · have hnone : (toRecord rest).filter (·.1 == other) = [] :=
          filter_toRecord_of_lt fun e he => (heq.trans hname) ▸ hfirst e he
        simp [heq, hname, hnone]
      · simp [heq, hname]
    case isFalse hne =>
      split
      case isTrue hlt =>
        rw [filter_toRecord_cons]
        by_cases hname : name = other
        · have hnone : (toRecord (d :: rest)).filter (·.1 == other) = [] := by
            refine filter_toRecord_of_lt fun e he => ?_
            rcases List.mem_cons.1 he with rfl | he
            · exact hname ▸ hlt
            · exact hname ▸ hlt.trans (hfirst e he)
          simp [hname, hnone]
        · simp [hname]
      case isFalse =>
        rw [filter_toRecord_cons, filter_toRecord_cons, ih hrest, List.append_assoc]

/-- Groups to which the captures of a record are added stay sorted, and have behind their captures
of each name those of the record. -/
theorem foldl_add (r : Record) : ∀ {g : NodesByName}, g.Sorted →
    let added := r.foldl (fun g (name, node) => g.add name [node]) g
    added.Sorted ∧ ∀ name, (toRecord added).filter (·.1 == name) =
      (toRecord g).filter (·.1 == name) ++ r.filter (·.1 == name) := by
  induction r with
  | nil => exact fun h => ⟨h, fun _ => (List.append_nil _).symm⟩
  | cons e r ih =>
    intro g h
    obtain ⟨hsorted, hfilter⟩ := ih (h.add e.1 [e.2])
    refine ⟨hsorted, fun name => ?_⟩
    rw [List.foldl_cons, hfilter, filter_toRecord_add h, List.append_assoc]
    by_cases heq : e.1 = name
    · subst heq
      simp
    · simp [heq]

theorem Sorted.toRecord {g : NodesByName} (h : g.Sorted) :
    g.toRecord.Pairwise fun a b => a.1 ≤ b.1 := by
  refine List.pairwise_flatMap.2 ⟨fun d _ => ?_, h.imp fun hlt x hx y hy => ?_⟩
  · exact List.pairwise_map.2 (List.pairwise_of_forall fun _ _ => le_rfl)
  · obtain ⟨_, -, rfl⟩ := List.mem_map.1 hx
    obtain ⟨_, -, rfl⟩ := List.mem_map.1 hy
    exact hlt.le

/-- The record has the nodes of the groups, each under the name of its group and those of one name in
their order. Its names come in order if those of the groups do. -/
structure SpelledOut (g : NodesByName) (r : Record) : Prop where
  nodes : ∀ name, (r.filter (·.1 == name)).map Prod.snd = (g.filter (·.1 == name)).flatMap Prod.snd
  sorted : g.Sorted → r.Pairwise fun a b => a.1 ≤ b.1

theorem spelledOut_toRecord (g : NodesByName) : g.SpelledOut g.toRecord := by
  refine ⟨fun name => ?_, Sorted.toRecord⟩
  induction g with
  | nil => rfl
  | cons d rest ih =>
    rw [filter_toRecord_cons, List.map_append, ih]
    by_cases h : d.1 = name
    · simp [h, Function.comp_def]
    · simp [h]

end NodesByName

namespace Record

/-- The record that its groups by name give. -/
def regroup (r : Record) : Record := (NodesByName.ofRecord r).toRecord

theorem regroup_sorted (r : Record) : r.regroup.Pairwise fun a b => a.1 ≤ b.1 :=
  (NodesByName.foldl_add r List.Pairwise.nil).1.toRecord

theorem filter_regroup (r : Record) (name : String) :
    r.regroup.filter (·.1 == name) = r.filter (·.1 == name) :=
  (NodesByName.foldl_add r List.Pairwise.nil).2 name

theorem mem_regroup {r : Record} {e : String × Node} : e ∈ r.regroup ↔ e ∈ r := by
  have hown : ∀ s : Record, e ∈ s ↔ e ∈ s.filter (·.1 == e.1) := fun s => by simp
  rw [hown, filter_regroup, ← hown]

theorem hasBody_regroup (r : Record) : r.regroup.hasBody = r.hasBody := by
  rw [Bool.eq_iff_iff, hasBody, hasBody, List.any_eq_true, List.any_eq_true]
  simp only [mem_regroup]

/-- No capture of the record but names goes by a lesser name than the first of them. -/
def LeadsByName (r : Record) : Prop :=
  ∀ first ∈ r.find? (·.1 != nameCapture), ∀ e ∈ r, e.1 ≠ nameCapture → first.1 ≤ e.1

end Record

namespace Capture

variable {r : Record} {c d : Capture}

theorem Canonical.find?_type (h : Canonical r c) :
    r.find? (·.1 == c.type) = some (c.type, c.body) := by
  obtain ⟨before, after, hr, hbefore⟩ := h.body
  refine List.find?_eq_some_iff_append.2 ⟨beq_self_eq_true _, before, after, hr, fun e he => ?_⟩
  simpa [hbefore e he] using h.type_ne.symm

/-- The capture goes by the least name of the record and is the first of that name. -/
structure LeastNamed (r : Record) (c : Capture) : Prop where
  first : r.find? (·.1 == c.type) = some (c.type, c.body)
  type_ne : c.type ≠ nameCapture
  least : ∀ e ∈ r, e.1 ≠ nameCapture → c.type ≤ e.1
  name : c.name = (r.filter (·.1 == nameCapture)).head?.map Prod.snd

theorem Canonical.leastNamed (h : Canonical r.regroup c) : LeastNamed r c where
  first := by
    have hfirst := h.find?_type
    rwa [← List.head?_filter, Record.filter_regroup, List.head?_filter] at hfirst
  type_ne := h.type_ne
  least := by
    intro e he hne
    obtain ⟨before, after, hr, hbefore⟩ := h.body
    have hsorted := r.regroup_sorted
    rw [hr] at hsorted
    have hlater := (List.pairwise_cons.1 (List.pairwise_append.1 hsorted).2.1).1
    have hmem := Record.mem_regroup.2 he
    rw [hr, List.mem_append, List.mem_cons] at hmem
    rcases hmem with hmem | rfl | hmem
    · exact absurd (hbefore e hmem) hne
    · exact le_rfl
    · exact hlater e hmem
  name := by rw [h.name, Record.filter_regroup]

/-- Both captures of a record are there or none, and by name the grouped one comes first. -/
theorem ofRecord?_regroup_cases (r : Record) :
    (ofRecord? r = none ∧ ofRecord? r.regroup = none) ∨
    ∃ c d, ofRecord? r = some c ∧ ofRecord? r.regroup = some d ∧ Canonical r c ∧ LeastNamed r d ∧
      d.type ≤ c.type := by
  have hsome : (ofRecord? r.regroup).isSome = (ofRecord? r).isSome := by
    rw [ofRecord?_isSome, ofRecord?_isSome, r.hasBody_regroup]
  cases hc : ofRecord? r with
  | none =>
    rw [hc] at hsome
    exact Or.inl ⟨rfl, Option.not_isSome_iff_eq_none.1 (by simp [hsome])⟩
  | some c =>
    rw [hc] at hsome
    obtain ⟨d, hd⟩ := Option.isSome_iff_exists.1 hsome
    have hcanonical := ofRecord?_eq_some_iff.1 hc
    have hleast := (ofRecord?_eq_some_iff.1 hd).leastNamed
    refine Or.inr ⟨c, d, rfl, hd, hcanonical, hleast, ?_⟩
    exact hleast.least _ (List.mem_of_find?_eq_some hcanonical.find?_body) hcanonical.type_ne

theorem ofRecord?_regroup_eq_iff (r : Record) :
    ofRecord? r.regroup = ofRecord? r ↔ r.LeadsByName := by
  rcases ofRecord?_regroup_cases r with ⟨hc, hd⟩ | ⟨c, d, hc, hd, hcanonical, hleast, hle⟩
  · have hnone : r.find? (·.1 != nameCapture) = none := by
      have hbody := ofRecord?_isSome r
      rwa [hc, Record.hasBody, ← List.isSome_find?, eq_comm, Option.isSome_none,
        Option.isSome_eq_false_iff, Option.isNone_iff_eq_none] at hbody
    rw [hc, hd]
    refine iff_of_true rfl fun first hfirst => ?_
    rw [hnone] at hfirst
    contradiction
  · rw [hc, hd]
    constructor
    · intro heq first hfirst e he hne
      obtain rfl := Option.some.inj heq
      rw [hcanonical.find?_body] at hfirst
      obtain rfl := Option.some.inj hfirst
      exact hleast.least e he hne
    · intro hleads
      have hge : c.type ≤ d.type :=
        hleads _ hcanonical.find?_body _ (List.mem_of_find?_eq_some hleast.first) hleast.type_ne
      have htype : d.type = c.type := le_antisymm hle hge
      have hbody : d.body = c.body := by
        have hfirst := hleast.first
        rw [htype, hcanonical.find?_type] at hfirst
        exact (congrArg Prod.snd (Option.some.inj hfirst)).symm
      have hname : d.name = c.name := hleast.name.trans hcanonical.name.symm
      exact congrArg some (Capture.mk.injEq .. ▸ ⟨htype, hname, hbody⟩)

end Capture

/-- Tests of which one implies the other on a list and which as many of its members pass pass the
same members. -/
theorem imp_of_countP_eq {α : Type} {p q : α → Bool} {l : List α}
    (himp : ∀ a ∈ l, p a = true → q a = true) (hcount : l.countP p = l.countP q) :
    ∀ a ∈ l, q a = true → p a = true := by
  induction l with
  | nil => simp
  | cons b l ih =>
    obtain ⟨hb, hrest⟩ := List.forall_mem_cons.1 himp
    have hle := List.countP_mono_left hrest
    rw [List.countP_cons, List.countP_cons] at hcount
    refine List.forall_mem_cons.2 ⟨fun hqb => ?_, ih hrest ?_⟩
    · by_contra hpb
      simp [hqb, hpb] at hcount
      omega
    · cases hpb : p b with
      | true => simpa [hpb, hb hpb] using hcount
      | false =>
        rw [hpb] at hcount
        cases hqb : q b with
        | true =>
          simp [hqb] at hcount
          omega
        | false => simpa [hqb] using hcount

/-- The record has a capture of a lesser type. -/
def Record.typedBelow (type : String) (r : Record) : Bool :=
  ((Capture.ofRecord? r).map fun c => decide (c.type < type)).getD false

/-- Grouping never raises the type of a record, so where the same types come back no record has lost
its own. -/
theorem leadsByName_of_perm {rs : List Record}
    (hperm : ((rs.map Record.regroup).filterMap Capture.ofRecord?).Perm
      (rs.filterMap Capture.ofRecord?)) : ∀ r ∈ rs, r.LeadsByName := by
  intro r hr
  rcases Capture.ofRecord?_regroup_cases r with ⟨hc, hd⟩ | ⟨c, d, hc, hd, hcanonical, hleast, -⟩
  · exact (Capture.ofRecord?_regroup_eq_iff r).1 (hd.trans hc.symm)
  · have himp : ∀ s ∈ rs, s.typedBelow c.type = true → s.regroup.typedBelow c.type = true := by
      intro s _ hs
      rcases Capture.ofRecord?_regroup_cases s with ⟨hnone, -⟩ | ⟨c', d', hc', hd', -, -, hle⟩
      · simp [Record.typedBelow, hnone] at hs
      · have hlt : c'.type < c.type := by simpa [Record.typedBelow, hc'] using hs
        simpa [Record.typedBelow, hd'] using hle.trans_lt hlt
    -- the captures are the same, so as many of their types are below that of `c` on either side; by
    -- `himp` then no record comes below it through grouping, and `r` does not either
    have hcount : rs.countP (·.typedBelow c.type) = rs.countP (·.regroup.typedBelow c.type) := by
      have hsame := hperm.countP_eq fun e : Capture => decide (e.type < c.type)
      rw [List.countP_filterMap, List.countP_filterMap, List.countP_map] at hsame
      exact hsame.symm
    have hle : c.type ≤ d.type := by
      by_contra hlt
      have hgrouped : r.regroup.typedBelow c.type = true := by
        simpa [Record.typedBelow, hd] using hlt
      have hplain := imp_of_countP_eq himp hcount r hr hgrouped
      rw [Record.typedBelow, hc, Option.map_some, Option.getD_some, decide_eq_true_eq] at hplain
      exact lt_irrefl _ hplain
    intro first hfirst e he hne
    rw [hcanonical.find?_body] at hfirst
    obtain rfl := Option.some.inj hfirst
    exact hle.trans (hleast.least e he hne)

/-- A declaration has its type alone before its names. -/
theorem DeclaredIn.leadsByName {root body : Node} {types : List String} {type : String}
    {names : Record} (h : DeclaredIn root types type body names) :
    Record.LeadsByName ((type, body) :: names) := by
  intro first hfirst e he hne
  rw [List.find?_cons_of_pos (by simpa using h.type_ne)] at hfirst
  obtain rfl := Option.some.inj hfirst
  rcases List.mem_cons.1 he with rfl | he
  · exact le_rfl
  · exact absurd (h.below e he).1 hne

namespace CaptureSet

theorem toRecords_grouped (rs : List Record) :
    (CaptureSet.grouped (rs.map NodesByName.ofRecord)).toRecords = rs.map Record.regroup := by
  rw [toRecords, List.map_map]
  rfl

theorem normalize_grouped_of_leads {rs : List Record} (h : ∀ r ∈ rs, r.LeadsByName) :
    (CaptureSet.grouped (rs.map NodesByName.ofRecord)).normalize =
      (CaptureSet.records rs).normalize := by
  refine normalize_congr ?_
  rw [toRecords_grouped, List.map_map]
  exact List.map_congr_left fun r hr => (Capture.ofRecord?_regroup_eq_iff r).2 (h r hr)

theorem leadsByName_of_captures_eq {rs : List Record}
    (h : (CaptureSet.grouped (rs.map NodesByName.ofRecord)).normalize.captures =
      (CaptureSet.records rs).normalize.captures) : ∀ r ∈ rs, r.LeadsByName := by
  have hgrouped := (byRange_normalize (.grouped (rs.map NodesByName.ofRecord))).perm
  have hplain := (byRange_normalize (.records rs)).perm
  rw [toRecords_grouped, h] at hgrouped
  exact leadsByName_of_perm (hgrouped.symm.trans hplain)

theorem skipped_grouped (rs : List Record) :
    (CaptureSet.grouped (rs.map NodesByName.ofRecord)).normalize.skipped =
      (CaptureSet.records rs).normalize.skipped := by
  rw [skipped_eq, skipped_eq, toRecords_grouped, List.countP_map]
  refine List.countP_congr fun r _ => ?_
  rw [Function.comp_apply, r.hasBody_regroup]

/-- What a query of the catalogue matches may be grouped: it has one capture but names. -/
theorem normalize_ofGroups {language : String} {q : Query} (h : Catalogue.Lists language q)
    (root : Node) :
    (ofGroups (matchesIn q.patterns root)).normalize =
      (ofMatches (matchesIn q.patterns root)).normalize := by
  have hleads : ∀ r ∈ (matchesIn q.patterns root).map typed, r.LeadsByName := by
    intro r hr
    obtain ⟨matched, hmatched, rfl⟩ := List.mem_map.1 hr
    obtain ⟨type, body, names, rfl, htyped, hdeclared⟩ := h.declaredIn hmatched
    rw [htyped]
    exact hdeclared.leadsByName
  have hsame := normalize_grouped_of_leads hleads
  rw [List.map_map] at hsame
  exact hsame

/-- Grouped and plain records give equal counts. They give equal captures just when each record has
its body under the least of its names but `name`; else some body and its type are not those of the
record. -/
theorem normalize_grouped_iff (rs : List Record) :
    let plain := (CaptureSet.records rs).normalize
    let grouped := (CaptureSet.grouped (rs.map NodesByName.ofRecord)).normalize
    grouped.total = plain.total ∧ grouped.skipped = plain.skipped ∧
      (grouped.captures = plain.captures ↔ ∀ r ∈ rs, r.LeadsByName) := by
  refine ⟨?_, skipped_grouped rs, leadsByName_of_captures_eq, fun h => ?_⟩
  · show (rs.map NodesByName.ofRecord |>.map NodesByName.toRecord).length = rs.length
    rw [List.length_map, List.length_map]
  · rw [normalize_grouped_of_leads h]

/-- A function that returns one. -/
def oneFunctionTree : Node :=
  .mk ⟨0, "module", none, true, ⟨0, 0, 0⟩, ⟨22, 2, 0⟩⟩
    [.mk ⟨1, "function_definition", none, true, ⟨0, 0, 0⟩, ⟨21, 1, 12⟩⟩
      [.mk ⟨2, "def", none, false, ⟨0, 0, 0⟩, ⟨3, 0, 3⟩⟩ [],
        .mk ⟨3, "identifier", some "name", true, ⟨4, 0, 4⟩, ⟨5, 0, 5⟩⟩ [],
        .mk ⟨4, "parameters", some "parameters", true, ⟨5, 0, 5⟩, ⟨7, 0, 7⟩⟩
          [.mk ⟨5, "(", none, false, ⟨5, 0, 5⟩, ⟨6, 0, 6⟩⟩ [],
            .mk ⟨6, ")", none, false, ⟨6, 0, 6⟩, ⟨7, 0, 7⟩⟩ []],
        .mk ⟨7, ":", none, false, ⟨7, 0, 7⟩, ⟨8, 0, 8⟩⟩ [],
        .mk ⟨8, "block", some "body", true, ⟨13, 1, 4⟩, ⟨21, 1, 12⟩⟩
          [.mk ⟨9, "return_statement", none, true, ⟨13, 1, 4⟩, ⟨21, 1, 12⟩⟩
            [.mk ⟨10, "return", none, false, ⟨13, 1, 4⟩, ⟨19, 1, 10⟩⟩ [],
              .mk ⟨11, "integer", none, true, ⟨20, 1, 11⟩, ⟨21, 1, 12⟩⟩ []]]]]

/-- A module as the block, by a function in it. -/
def moduleOfFunction : Pattern :=
  .mk none (.oneOf ["module"]) [Catalogue.block "function_definition" "function"] (some "module")

/-- The module is captured first, but grouping puts the function before it and takes that for the
body. -/
theorem normalize_grouped_takes_function :
    let matched := matchesIn [moduleOfFunction] oneFunctionTree
    let plain := (CaptureSet.records matched).normalize
    let grouped := (CaptureSet.grouped (matched.map NodesByName.ofRecord)).normalize
    (∀ r ∈ matched, ∀ e ∈ r, e.1 ∈ nameCapture :: captureTypes) ∧
      plain.captures.map (fun c => (c.type, c.body.id)) = [("module", 0)] ∧
      grouped.captures.map (fun c => (c.type, c.body.id)) = [("function", 1)] ∧
      grouped.captures ≠ plain.captures := by
  intro matched plain grouped
  have hplain : plain.captures.map (fun c => (c.type, c.body.id)) = [("module", 0)] := by
    decide +kernel
  have hgrouped : grouped.captures.map (fun c => (c.type, c.body.id)) = [("function", 1)] := by
    decide +kernel
  refine ⟨by decide +kernel, hplain, hgrouped, fun heq => ?_⟩
  rw [heq, hplain] at hgrouped
  exact absurd hgrouped (by decide)

end CaptureSet

end SourceBlocks
