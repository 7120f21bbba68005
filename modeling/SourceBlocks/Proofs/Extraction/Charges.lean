import SourceBlocks.Proofs.Extraction.Stateless
import SourceBlocks.Proofs.Failure.Counts
import SourceBlocks.Proofs.Parser.Counters

/-! # What an extraction is charged with

Under a compiler that takes the catalogue, work on a file of a language with a grammar reports nothing
beyond its checkout. A file of any other language is reported once, if it has text. -/

namespace SourceBlocks

/-- The report of a file whose language has no grammar. -/
def unsupportedReport (language : String) (file : SourceText) : Report :=
  (Failure.unsupportedLanguage language).reportAt
    (Services.extractionOrigin "extract_blocks" language file)

/-- The report of a language whose parser did not come back in time. -/
def unavailableReport (language : String) : Report :=
  (Failure.parserUnavailable language "timed out waiting for parser").reportAt
    (Services.checkoutOrigin language)

/-- What the cache answers for a text that compiles is no failure, whatever it holds. -/
theorem QueryCache.failure_request {compiler : QueryCompiler} {program : Program} (c : QueryCache)
    (now : Nat) (key : QueryKey) (hgrammar : Language.hasGrammar key.language = true)
    (hcompiled : compiler key.language key.text = .ok program) :
    (c.request compiler now key).failure = none := by
  have hnew : ∀ d : QueryCache, (d.compileNew compiler now key).failure = none := by
    intro d
    rw [compileNew, if_pos hgrammar, hcompiled]
  rw [request]
  split
  · exact hnew c
  · split
    · exact hnew (c.erase key)
    · rfl

namespace Services

/-- The second state has these reports more than the first, and its pool counted this many more
checkouts and timeouts. -/
structure Charges (s t : Services) (reports : List Report) (checkouts timeouts : Nat) : Prop where
  log : t.log = s.log.recordAll reports
  pool : s.pool.Spends t.pool checkouts timeouts

variable {env : Environment} {s t u : Services}

theorem Charges.trans {reports more : List Report} {a b c d : Nat} (h : s.Charges t reports a b)
    (h' : t.Charges u more c d) : s.Charges u (reports ++ more) (a + c) (b + d) where
  log := by rw [h'.log, h.log, FailureLog.recordAll_append]
  pool := h.pool.trans h'.pool

theorem Charges.refl (s : Services) : s.Charges s [] 0 0 := ⟨rfl, .refl s.pool⟩

theorem charges_of_log (hlog : t.log = s.log) (hpool : t.pool = s.pool) : s.Charges t [] 0 0 :=
  ⟨hlog, hpool ▸ .refl s.pool⟩

theorem charges_report (s : Services) (r : Report) : s.Charges (s.report r) [r] 0 0 :=
  ⟨rfl, .refl s.pool⟩

/-- A query whose patterns all capture bodies passes over no record. -/
theorem log_runQuery? {answer : Option QueryHandle × Services} {language : String}
    {file : SourceText} {root : Node} (hbody : ∀ handle, answer.1 = some handle →
      ∀ p ∈ handle.program.patterns, p.hasBody = true) :
    (runQuery? env language file root answer).2.log = answer.2.log := by
  obtain ⟨handle | handle, after⟩ := answer
  · rfl
  · have hskipped := skipped_matchesIn_eq_zero (hbody handle rfl) root
    show (after.noteSkipped language file _).log = after.log
    rw [noteSkipped, if_pos hskipped]

section Catalogue

variable (hcatalogue : env.compiler.TakesCatalogue)
include hcatalogue

theorem log_compileQuery {language : String} {query : Option Query}
    (hlisted : ∀ q, query = some q → Catalogue.Lists language q) (s : Services) :
    (s.compileQuery env language query).2.log = s.log := by
  cases query with
  | none => rfl
  | some q =>
    have hq := hlisted q rfl
    have hnone := s.cache.failure_request (env.clock s.readings) ⟨language, q.text⟩ hq.hasGrammar
      (hcatalogue language q hq)
    simp only [compileQuery, compile, hnone, reportIfAny]

/-- The query that is found for a language is the one that the catalogue lists. -/
theorem hasBody_of_compileQuery (hs : s.Sound env.compiler) {language : String}
    {query : Option Query} (hlisted : ∀ q, query = some q → Catalogue.Lists language q)
    {handle : QueryHandle} (hhandle : (s.compileQuery env language query).1 = some handle) :
    ∀ p ∈ handle.program.patterns, p.hasBody = true := by
  have hprogram := compileQuery_program hs language query
  rw [hhandle, Option.map_some, Environment.program?_of_takesCatalogue hcatalogue hlisted]
    at hprogram
  obtain ⟨q, hq, hsame⟩ := Option.map_eq_some_iff.1 hprogram.symm
  rw [← hsame]
  exact (hlisted q hq).hasBody

theorem log_runQuery?_compileQuery (hs : s.Sound env.compiler) {language : String}
    {query : Option Query} (hlisted : ∀ q, query = some q → Catalogue.Lists language q)
    (file : SourceText) (root : Node) :
    (runQuery? env language file root (s.compileQuery env language query)).2.log = s.log := by
  rw [log_runQuery? fun _ hhandle => hasBody_of_compileQuery hcatalogue hs hlisted hhandle]
  exact log_compileQuery hcatalogue hlisted s

/-- No strategy reports anything. -/
theorem log_attempt (hs : s.Sound env.compiler) (language : String) (file : SourceText)
    (root : Node) (strategy : Strategy) :
    (s.attempt env language file root strategy).2.log = s.log := by
  cases strategy with
  | primaryQuery =>
    exact log_runQuery?_compileQuery hcatalogue hs (fun _ hq => Or.inl hq) file root
  | fallbackQuery =>
    exact log_runQuery?_compileQuery hcatalogue hs (fun _ hq => Or.inr hq) file root
  | structural => rfl
  | wholeFile => rfl

theorem log_tryInOrder (language : String) (file : SourceText) (root : Node)
    (strategies : List Strategy) :
    ∀ {s : Services} (captures skipped : Nat), s.Sound env.compiler →
      (tryInOrder env language file root strategies captures skipped s).2.log = s.log := by
  induction strategies with
  | nil => intro s captures skipped _; rfl
  | cons strategy rest ih =>
    intro s captures skipped hs
    have hfirst := log_attempt hcatalogue hs language file root strategy
    have hsound := (keeps_attempt hs language file root strategy).sound hs
    rw [tryInOrder]
    dsimp only
    split
    · exact (ih _ _ hsound).trans hfirst
    · exact hfirst

theorem charges_extractParsed (hs : s.Sound env.compiler) {language : String}
    (hgrammar : Language.hasGrammar language = true) (file : SourceFile) :
    s.Charges (s.extractParsed env language file).2 [] 0 0 := by
  have hkeeps := keeps_extractFromRoot hs language file.toSourceText file.tree
  rw [extractParsed_eq_extractFromRoot]
  refine charges_of_log ?_ hkeeps.pool
  rw [extractFromRoot]
  rcases s.precheck_cases language file.toSourceText with ⟨-, hp⟩ | ⟨-, hnone, -⟩ | ⟨-, -, hp⟩
  · rw [hp]
  · rw [Catalogue.hasStructuralSupport_eq, hgrammar] at hnone
    exact absurd hnone (by simp)
  · rw [hp]
    exact log_tryInOrder hcatalogue language file.toSourceText file.tree Strategy.order 0 0 hs

end Catalogue

/-- A file of a language without a grammar is reported if it has text, and asks for no parser. -/
theorem charges_extract_of_unsupported (s : Services) (env : Environment) {language : String}
    (hgrammar : Language.hasGrammar language = false) (file : SourceFile) :
    s.Charges (s.extract env language file).2
      (if Text.isBlankText file.text then []
        else [unsupportedReport language file.toSourceText]) 0 0 := by
  rw [extract]
  rcases s.precheck_cases language file.toSourceText with ⟨hb, hp⟩ | ⟨hb, -, hp⟩ | ⟨-, hsome, -⟩
  · rw [hp, if_pos hb]
    exact .refl s
  · rw [hp, hb]
    exact charges_report s _
  · rw [Catalogue.hasStructuralSupport_eq, hgrammar] at hsome
    exact absurd hsome (by simp)

end Services

end SourceBlocks
