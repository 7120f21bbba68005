import SourceBlocks.Proofs.Capture.Declaring
import SourceBlocks.Proofs.Extraction.Charges

/-! # Usable captures

What the queries of the catalogue match is a declaration in every tree, so normalization passes over
nothing that they find. An extraction therefore has no record without a body to report: it reports
at most that the parser of its language did not come back. -/

namespace SourceBlocks

/-- The captures of a catalogue query are those of its matches: body first, then the names. -/
theorem Catalogue.Lists.mem_captured_iff {language : String} {q : Query} (h : Lists language q)
    {root : Node} {c : Capture} :
    c ∈ q.program.captured root ↔ ∃ names, (c.type, c.body) :: names ∈ matchesIn q.patterns root ∧
      c.name = names.head?.map Prod.snd := by
  simp only [Program.captured, Query.program, CaptureSet.normalize, CaptureSet.ofMatches,
    CaptureSet.toRecords, List.mem_mergeSort, List.mem_filterMap, List.mem_map]
  constructor
  · rintro ⟨_, ⟨r, hr, rfl⟩, hc⟩
    obtain ⟨type, body, names, rfl, htyped, hdeclared⟩ := h.declaredIn hr
    rw [htyped, hdeclared.ofRecord?_eq] at hc
    obtain rfl := Option.some.inj hc
    exact ⟨names, hr, rfl⟩
  · rintro ⟨names, hr, hname⟩
    obtain ⟨type, body, others, hsame, htyped, hdeclared⟩ := h.declaredIn hr
    obtain ⟨hhead, rfl⟩ := List.cons.inj hsame
    refine ⟨_, ⟨_, hr, rfl⟩, ?_⟩
    rw [htyped, hsame, hdeclared.ofRecord?_eq, ← hname]
    obtain ⟨rfl, rfl⟩ := Prod.mk.inj hhead
    rfl

/-- A capture of a catalogue query has a block type, a named node for its body, and a name inside. -/
theorem Catalogue.Lists.usable {language : String} {q : Query} (h : Lists language q) {root : Node}
    {c : Capture} (hc : c ∈ (CaptureSet.ofMatches (matchesIn q.patterns root)).normalize.captures) :
    c.type ∈ q.captures ∧ c.type ∈ captureTypes ∧ c.body ∈ root.preorder ∧ c.body.named = true ∧
      ∀ name ∈ c.name, name.Below c.body := by
  obtain ⟨names, hr, hname⟩ := h.mem_captured_iff.1 hc
  obtain ⟨type, body, others, hsame, -, hdeclared⟩ := h.declaredIn hr
  obtain ⟨hhead, rfl⟩ := List.cons.inj hsame
  obtain ⟨rfl, rfl⟩ := Prod.mk.inj hhead
  refine ⟨hdeclared.type_mem, ?_, hdeclared.inside, hdeclared.named, fun name hin => ?_⟩
  · exact (List.mem_cons.1 (h.captures_subset hdeclared.type_mem)).resolve_left hdeclared.type_ne
  · rw [hname] at hin
    obtain ⟨e, he, rfl⟩ := Option.map_eq_some_iff.1 hin
    exact (hdeclared.below e (List.mem_of_mem_head? he)).2

namespace Services

variable {env : Environment} {s : Services}

theorem log_extractFromRoot (hcatalogue : env.compiler.TakesCatalogue) (hs : s.Sound env.compiler)
    {language : String} (hgrammar : Language.hasGrammar language = true) (file : SourceText)
    (root : Node) : (s.extractFromRoot env language file root).2.log = s.log := by
  have hcharges := charges_extractParsed hcatalogue hs hgrammar ⟨file, root⟩
  rw [extractParsed_eq_extractFromRoot] at hcharges
  exact hcharges.log

/-- A file of a language with a grammar is reported only if it has text and its parser is out. -/
theorem log_extract (hcatalogue : env.compiler.TakesCatalogue) (hs : s.Sound env.compiler)
    {language : String} (hgrammar : Language.hasGrammar language = true) (file : SourceFile) :
    (s.extract env language file).2.log =
      if Text.isBlankText file.text = false ∧ s.pool.isHeld language = true then
        s.log.record (unavailableReport language)
      else s.log := by
  rw [extract]
  rcases s.precheck_cases language file.toSourceText with ⟨hb, hp⟩ | ⟨-, hnone, -⟩ | ⟨hb, -, hp⟩
  · rw [hp, hb]
    rfl
  · rw [Catalogue.hasStructuralSupport_eq, hgrammar] at hnone
    exact absurd hnone (by simp)
  · rw [hp]
    cases hlease : (s.pool.acquire language).lease with
    | error failure =>
      have hheld : s.pool.isHeld language = true :=
        (ParserPool.acquire_error hs.pool hlease).1.resolve_right (by simp [hgrammar])
      have hwhy := (ParserPool.spends_acquire_error hgrammar hlease).2
      simp only [acquire_of_error hlease]
      rw [if_pos ⟨hb, hheld⟩, hwhy]
      rfl
    | ok lease =>
      have hfree : s.pool.isHeld language = false := (ParserPool.acquire_ok hs.pool hlease).1
      have hwork := charges_extractParsed hcatalogue (hs.checkout language) hgrammar file
      simp only [acquire_of_ok hlease]
      rw [if_neg (by simp [hfree])]
      exact hwork.log

/-- Whatever the tree, a query of the catalogue gives no record to pass over. Each of its captures
has one of its capture names for a type, neither `name` nor the type of unknown names; its body is a
named node, and its name, if there is one, stands inside the body. So under a compiler that takes
the catalogue, an extraction never reports records without a body, nor anything but a parser that is
out. -/
theorem catalogue_usable (l : Language) :
    (∀ q, Catalogue.Lists l.key q → ∀ root,
      let normal := (CaptureSet.ofMatches (matchesIn q.patterns root)).normalize
      normal.skipped = 0 ∧
      ∀ c ∈ normal.captures,
        c.type ∈ q.captures ∧ c.type ≠ nameCapture ∧ c.type ≠ "block" ∧
        c.body ∈ root.preorder ∧ c.body.named = true ∧ ∀ name ∈ c.name, name.Below c.body) ∧
    ∀ (env : Environment) (s : Services), env.compiler.TakesCatalogue → s.Sound env.compiler →
      (∀ file root, (s.extractFromRoot env l.key file root).2.log = s.log) ∧
      ∀ file, (s.extract env l.key file).2.log =
        if Text.isBlankText file.text = false ∧ s.pool.isHeld l.key = true then
          s.log.record (unavailableReport l.key)
        else s.log := by
  refine ⟨fun q hq root => ⟨skipped_matchesIn_eq_zero hq.hasBody root, fun c hc => ?_⟩, ?_⟩
  · obtain ⟨hown, htype, hinside, hnamed, hname⟩ := hq.usable hc
    have htable : ∀ type ∈ captureTypes, type ≠ nameCapture ∧ type ≠ "block" := by decide
    exact ⟨hown, (htable _ htype).1, (htable _ htype).2, hinside, hnamed, hname⟩
  · intro env s hcatalogue hs
    have hgrammar : Language.hasGrammar l.key = true := (Catalogue.lists_primary l).hasGrammar
    exact ⟨log_extractFromRoot hcatalogue hs hgrammar, log_extract hcatalogue hs hgrammar⟩

/-- An object with one pair. -/
def pairFile : SourceText := ⟨"a.json", "h", "\x7b\"a\": 1\x7d"⟩

def pairTree : Node :=
  .mk ⟨0, "document", none, true, ⟨0, 0, 0⟩, ⟨8, 0, 8⟩⟩
    [.mk ⟨1, "object", none, true, ⟨0, 0, 0⟩, ⟨8, 0, 8⟩⟩
      [.mk ⟨2, "\x7b", none, false, ⟨0, 0, 0⟩, ⟨1, 0, 1⟩⟩ [],
        .mk ⟨3, "pair", none, true, ⟨1, 0, 1⟩, ⟨7, 0, 7⟩⟩
          [.mk ⟨4, "string", some "key", true, ⟨1, 0, 1⟩, ⟨4, 0, 4⟩⟩
            [.mk ⟨5, "\"", none, false, ⟨1, 0, 1⟩, ⟨2, 0, 2⟩⟩ [],
              .mk ⟨6, "string_content", none, true, ⟨2, 0, 2⟩, ⟨3, 0, 3⟩⟩ [],
              .mk ⟨7, "\"", none, false, ⟨3, 0, 3⟩, ⟨4, 0, 4⟩⟩ []],
            .mk ⟨8, ":", none, false, ⟨4, 0, 4⟩, ⟨5, 0, 5⟩⟩ [],
            .mk ⟨9, "number", some "value", true, ⟨6, 0, 6⟩, ⟨7, 0, 7⟩⟩ []],
        .mk ⟨10, "\x7d", none, false, ⟨7, 0, 7⟩, ⟨8, 0, 8⟩⟩ []]]

/-- The pair is found two levels below the node at which its pattern begins. -/
theorem catalogue_usable_pair :
    let query := Catalogue.primary .json
    let normal := (CaptureSet.ofMatches (matchesIn query.patterns pairTree)).normalize
    let env : Environment := ⟨{}, Catalogue.compiler, id⟩
    let s := ofSettings {}
    Catalogue.Lists "json" query ∧ env.compiler.TakesCatalogue ∧ s.Sound env.compiler ∧
      normal.captures.map (fun c => (c.type, c.name.map (·.id), c.body.id)) =
        [("pair", some 4, 3)] ∧
      normal.skipped = 0 ∧ (∀ c ∈ normal.captures, ∀ name ∈ c.name, name.Below c.body) ∧
      (s.extractFromRoot env "json" pairFile pairTree).1.blocks.map (·.identifier) = ["a"] ∧
      (s.extractFromRoot env "json" pairFile pairTree).2.log = s.log := by
  have hlists : Catalogue.Lists "json" (Catalogue.primary .json) := Catalogue.lists_primary .json
  have hsound := sound_ofSettings Catalogue.compiler {}
  obtain ⟨hskipped, hcaptures⟩ := (catalogue_usable .json).1 _ hlists pairTree
  have hlog := ((catalogue_usable .json).2 ⟨{}, Catalogue.compiler, id⟩ (ofSettings {})
    Catalogue.compiler_takesCatalogue hsound).1 pairFile pairTree
  refine ⟨hlists, Catalogue.compiler_takesCatalogue, hsound, by decide +kernel, hskipped, ?_,
    by decide +kernel, hlog⟩
  exact fun c hc => (hcaptures c hc).2.2.2.2.2

end Services

end SourceBlocks
