import SourceBlocks.Extraction.Basic
import SourceBlocks.Proofs.Capture.Normal
import SourceBlocks.Proofs.Capture.Records
import SourceBlocks.Proofs.Query.Sound

/-! # What the strategies find

What a strategy finds in a tree depends on the settings, the compiler and the file, and on nothing that
the services remember. Each block that it finds, but for the whole file, is that of a capture with its
body in the tree. -/

namespace SourceBlocks

/-- Reading a capture name as a block type makes no name of it and no body of a name. -/
theorem CaptureSet.hasBody_typed (r : Record) : Record.hasBody (typed r) = r.hasBody := by
  rw [typed, Record.hasBody, Record.hasBody, List.any_map]
  refine List.any_congr rfl fun e => ?_
  by_cases h : e.1 = nameCapture
  · simp [captureType, h]
  · exact (bne_iff_ne.2 (captureType_ne_name h)).trans (bne_iff_ne.2 h).symm

namespace Program

/-- The captures of a run on a tree. -/
def captured (p : Program) (root : Node) : List Capture :=
  (CaptureSet.ofMatches (matchesIn p.patterns root)).normalize.captures

/-- What a run on a tree gives: each match is counted, and those without a body are passed over. -/
def finds (p : Program) (settings : Settings) (language : String) (file : SourceText)
    (root : Node) : Attempt where
  blocks := captureBlocks settings language file (p.captured root)
  captures := (matchesIn p.patterns root).length
  skipped := (matchesIn p.patterns root).countP (!·.hasBody)

end Program

namespace Environment

/-- The program of a query, where there is one and it compiles. -/
def program? (env : Environment) (language : String) (query : Option Query) : Option Program :=
  query.bind fun q => env.compiler.program? ⟨language, q.text⟩

/-- What a query gives, which is nothing at all where it has no program. -/
def queryFinds (env : Environment) (language : String) (file : SourceText) (root : Node)
    (query : Option Query) : Attempt :=
  match env.program? language query with
  | some p => p.finds env.settings language file root
  | none => .none

/-- What a strategy gives. -/
def finds (env : Environment) (language : String) (file : SourceText) (root : Node) :
    Strategy → Attempt
  | .primaryQuery => env.queryFinds language file root (Catalogue.primaryOf? language)
  | .fallbackQuery => env.queryFinds language file root (Catalogue.fallbackOf? language)
  | .structural =>
    let captures := structuralCaptures language root
    ⟨captureBlocks env.settings language file captures, captures.length, 0⟩
  | .wholeFile =>
    ⟨if env.settings.wholeFileFallback then (wholeFileBlock? env.settings file).toList else [], 0, 0⟩

/-- A compiler that takes the catalogue runs each of its queries as it stands. -/
theorem program?_of_takesCatalogue {env : Environment} (h : env.compiler.TakesCatalogue)
    {language : String} {query : Option Query}
    (hlisted : ∀ q, query = some q → Catalogue.Lists language q) :
    env.program? language query = query.map Query.program := by
  cases query with
  | none => rfl
  | some q =>
    have hq := hlisted q rfl
    rw [program?, Option.bind_some, QueryCompiler.program?, if_pos hq.hasGrammar, h language q hq]
    rfl

/-- Under such a compiler the blocks of a query are those of its captures. -/
theorem mem_queryFinds {env : Environment} (h : env.compiler.TakesCatalogue) {language : String}
    {file : SourceText} {root : Node} {query : Option Query}
    (hlisted : ∀ q, query = some q → Catalogue.Lists language q) {b : Block} :
    b ∈ (env.queryFinds language file root query).blocks ↔
      ∃ q, query = some q ∧ ∃ c ∈ q.program.captured root,
        c.block? env.settings language file = some b := by
  rw [queryFinds, program?_of_takesCatalogue h hlisted]
  cases query with
  | none => simp [Attempt.none]
  | some q => simp [Program.finds, captureBlocks]

end Environment

namespace Services

variable {env : Environment} {language : String} {file : SourceText} {root : Node}

theorem runQuery_eq_finds (s : Services) (handle : QueryHandle) :
    (s.runQuery env language file root handle).1 =
      handle.program.finds env.settings language file root := by
  let set := CaptureSet.ofMatches (matchesIn handle.program.patterns root)
  have htotal : set.normalize.total = (matchesIn handle.program.patterns root).length :=
    List.length_map ..
  have hskipped : set.normalize.skipped =
      (matchesIn handle.program.patterns root).countP (!·.hasBody) := by
    rw [CaptureSet.skipped_eq]
    refine List.countP_map.trans (List.countP_congr fun r _ => ?_)
    rw [Function.comp_apply, CaptureSet.hasBody_typed]
  rw [runQuery, Program.finds, ← htotal, ← hskipped]
  rfl

/-- Of a handle only its program matters. -/
theorem runQuery?_eq_queryFinds {answer : Option QueryHandle × Services} {query : Option Query}
    (h : answer.1.map QueryHandle.program = env.program? language query) :
    (runQuery? env language file root answer).1 = env.queryFinds language file root query := by
  rw [Environment.queryFinds, ← h]
  obtain ⟨handle | handle, s⟩ := answer
  · rfl
  · exact s.runQuery_eq_finds handle

theorem block_of_runQuery? {answer : Option QueryHandle × Services} {b : Block}
    (hb : b ∈ (runQuery? env language file root answer).1.blocks) :
    ∃ c : Capture, c.body ∈ root.preorder ∧ c.block? env.settings language file = some b := by
  obtain ⟨handle | handle, s⟩ := answer
  · exact absurd hb List.not_mem_nil
  · obtain ⟨c, hc, hblock⟩ := List.mem_filterMap.1 hb
    exact ⟨c, CaptureSet.body_mem_of_ofMatches hc, hblock⟩

/-- A block of a strategy is that of a capture in the tree, or the whole file as the last resort. -/
theorem block_of_attempt {s : Services} {strategy : Strategy} {b : Block}
    (hb : b ∈ (s.attempt env language file root strategy).1.blocks) :
    (strategy ≠ .wholeFile ∧
      ∃ c : Capture, c.body ∈ root.preorder ∧ c.block? env.settings language file = some b) ∨
    (strategy = .wholeFile ∧ wholeFileBlock? env.settings file = some b) := by
  cases strategy with
  | primaryQuery => exact Or.inl ⟨by simp, block_of_runQuery? hb⟩
  | fallbackQuery => exact Or.inl ⟨by simp, block_of_runQuery? hb⟩
  | structural =>
    obtain ⟨c, hc, hblock⟩ := List.mem_filterMap.1 hb
    exact Or.inl ⟨by simp, c, body_mem_of_structuralCaptures hc, hblock⟩
  | wholeFile =>
    refine Or.inr ⟨rfl, ?_⟩
    rw [attempt] at hb
    dsimp only at hb
    split at hb
    · exact Option.mem_toList.1 hb
    · exact absurd hb List.not_mem_nil

end Services

end SourceBlocks
