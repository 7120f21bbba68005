import SourceBlocks.Proofs.Failure.Counts
import SourceBlocks.Proofs.Query.Recency

/-! # What requests report

A request reports nothing when it hits. When it does not, it reports a text that does not compile and
a language without a grammar, each time anew. The log of a run counts just these reports. -/

namespace SourceBlocks

/-- What is to be reported of a key that is not answered from the cache. -/
def QueryCompiler.failure? (compiler : QueryCompiler) (key : QueryKey) : Option Failure :=
  if Language.hasGrammar key.language then key.rejection? (compiler key.language key.text)
  else some (.unsupportedLanguage key.language)

/-- The language has a grammar, and the text does not compile. -/
def QueryCompiler.rejects (compiler : QueryCompiler) (key : QueryKey) : Bool :=
  Language.hasGrammar key.language &&
    match compiler key.language key.text with
    | .ok _ => false
    | .error _ => true

def Failure.isRejection : Failure → Bool
  | queryRejected .. => true
  | _ => false

namespace RequestOutcome

/-- A text that does not compile was not found in the cache. -/
def missesRejected (compiler : QueryCompiler) (o : RequestOutcome) : Bool :=
  !o.hit && compiler.rejects o.key

def reports (o : RequestOutcome) : List Report :=
  o.failure.toList.map fun f => f.reportAt (Services.compileOrigin o.key.language)

/-- Only keys of a language with a grammar hit, and all that misses reports what there is to report. -/
structure Accounted (compiler : QueryCompiler) (o : RequestOutcome) : Prop where
  grammar : o.hit = true → Language.hasGrammar o.key.language = true
  failure : o.failure = if o.hit then none else compiler.failure? o.key

variable {compiler : QueryCompiler} {o : RequestOutcome}

/-- What a request can report: nothing, that there is no grammar, or that the text does not
compile. -/
theorem Accounted.reports_cases (h : o.Accounted compiler) :
    (o.reports = [] ∧ o.missesRejected compiler = false ∧
      Language.hasGrammar o.key.language = true) ∨
    (o.reports = [(Failure.unsupportedLanguage o.key.language).reportAt
        (Services.compileOrigin o.key.language)] ∧
      o.missesRejected compiler = false ∧ Language.hasGrammar o.key.language = false) ∨
    ∃ message, o.reports = [(Failure.queryRejected o.key.language message).reportAt
        (Services.compileOrigin o.key.language)] ∧
      o.missesRejected compiler = true ∧ Language.hasGrammar o.key.language = true := by
  obtain ⟨hgrammar, hfailure⟩ := h
  unfold reports missesRejected QueryCompiler.rejects
  rw [hfailure]
  unfold QueryCompiler.failure?
  cases hhit : o.hit with
  | true =>
    left
    simp [hgrammar hhit]
  | false =>
    cases hlanguage : Language.hasGrammar o.key.language with
    | false =>
      right; left
      simp
    | true =>
      cases compiler o.key.language o.key.text with
      | ok program =>
        left
        simp [QueryKey.rejection?]
      | error message =>
        right; right
        exact ⟨message, by simp [QueryKey.rejection?]⟩

/-- Reports of a sort are as many as the requests that make one report of it each. -/
theorem countP_reports {p : Report → Bool} {q : RequestOutcome → Bool} (os : List RequestOutcome)
    (h : ∀ o ∈ os, o.reports.countP p = if q o then 1 else 0) :
    (os.flatMap reports).countP p = os.countP q := by
  induction os with
  | nil => rfl
  | cons o rest ih =>
    rw [List.flatMap_cons, List.countP_append, List.countP_cons, h o List.mem_cons_self,
      ih fun o ho => h o (List.mem_cons_of_mem _ ho), Nat.add_comm]

end RequestOutcome

namespace QueryCache

variable {compiler : QueryCompiler} {room now : Nat} {c : QueryCache} {key : QueryKey}

theorem rejection?_compileResult (c : QueryCache) (compiler : QueryCompiler) (key : QueryKey) :
    key.rejection? (c.compileResult compiler key) =
      key.rejection? (compiler key.language key.text) := by
  unfold compileResult
  cases compiler key.language key.text <;> rfl

theorem WellFormed.accounted (h : c.WellFormed compiler room) (now : Nat) (key : QueryKey) :
    (c.outcome compiler now key).Accounted compiler := by
  cases hgrammar : Language.hasGrammar key.language with
  | false =>
    have hmiss := isHit_of_find?_eq_none (h.find?_of_no_grammar hgrammar) now
    rw [outcome_of_no_grammar hmiss hgrammar]
    exact ⟨fun hhit => Bool.noConfusion hhit, by simp [QueryCompiler.failure?, hgrammar]⟩
  | true =>
    refine ⟨fun _ => hgrammar, ?_⟩
    cases hhit : c.isHit now key with
    | true =>
      obtain ⟨e, hfound, hlive⟩ := isHit_iff_find?.1 hhit
      rw [outcome_of_hit hfound hlive]
      rfl
    | false =>
      rw [outcome_of_miss hhit hgrammar]
      simp [QueryCompiler.failure?, hgrammar, rejection?_compileResult]

end QueryCache

namespace Services

variable {env : Environment} {room : Nat} {s : Services}

/-- A compilation adds its reports to the log. -/
theorem log_compile (env : Environment) (s : Services) (key : QueryKey) :
    (s.compile env key).2.log = s.log.recordAll
      (s.cache.outcome env.compiler (env.clock s.readings) key).reports := by
  unfold compile RequestOutcome.reports QueryCache.outcome
  dsimp only
  cases (s.cache.request env.compiler (env.clock s.readings) key).failure <;> rfl

theorem log_runSteps (env : Environment) (steps : List QueryStep) : ∀ s : Services,
    (s.runSteps env steps).log =
      s.log.recordAll ((s.outcomes env steps).flatMap RequestOutcome.reports) := by
  induction steps with
  | nil => exact fun _ => rfl
  | cons st rest ih =>
    intro s
    cases st with
    | request key =>
      rw [outcomes, List.flatMap_cons, FailureLog.recordAll_append, ← log_compile]
      exact ih (s.compile env key).2
    | sweep => exact ih (s.step env .sweep)
    | clear => exact ih (s.step env .clear)

/-- Each request of a run is accounted for. -/
theorem accounted_outcomes (steps : List QueryStep) : ∀ {s : Services},
    s.cache.WellFormed env.compiler room →
      ∀ o ∈ s.outcomes env steps, o.Accounted env.compiler := by
  induction steps with
  | nil => exact fun _ o ho => absurd ho List.not_mem_nil
  | cons st rest ih =>
    intro s h o ho
    have hrest := ih (wellFormed_step h st)
    cases st with
    | request key =>
      rcases List.mem_cons.1 ho with rfl | hlater
      · exact h.accounted _ key
      · exact hrest o hlater
    | sweep => exact hrest o ho
    | clear => exact hrest o ho

/-- Under its operation a run reports, of the texts that do not compile, those that it did not find in
the cache. Besides it reports each request for a language without a grammar. -/
theorem rejections_runSteps (h : s.cache.WellFormed env.compiler room) (steps : List QueryStep) :
    let requests := s.outcomes env steps
    let reports := requests.flatMap RequestOutcome.reports
    let operation := "query_manager.compile_query"
    (reports.countP fun r => r.failure.isRejection && r.origin.operationKey == operation) =
        requests.countP (·.missesRejected env.compiler) ∧
      (reports.map fun r => r.origin.operationKey).count operation =
        requests.countP (fun o => o.missesRejected env.compiler ||
          !Language.hasGrammar o.key.language) ∧
      ∀ language, Language.hasGrammar language = true →
        (reports.map fun r => r.origin.languageKey).count language =
          requests.countP fun o => o.missesRejected env.compiler && o.key.language == language := by
  intro requests reports operation
  have haccounted : ∀ o ∈ requests, o.Accounted env.compiler := accounted_outcomes steps h
  have hoperation : ∀ language, (compileOrigin language).operationKey = operation :=
    fun _ => by simp [operation, compileOrigin, Origin.operationKey]
  refine ⟨?_, ?_, fun language hlanguage => ?_⟩
  · apply RequestOutcome.countP_reports
    intro o ho
    rcases (haccounted o ho).reports_cases with ⟨hr, hm, -⟩ | ⟨hr, hm, -⟩ | ⟨message, hr, hm, -⟩ <;>
      simp [hr, hm, Failure.reportAt, Failure.isRejection, hoperation]
  · rw [List.count_eq_countP, List.countP_map]
    apply RequestOutcome.countP_reports
    intro o ho
    rcases (haccounted o ho).reports_cases with ⟨hr, hm, hg⟩ | ⟨hr, hm, hg⟩ | ⟨message, hr, hm, hg⟩ <;>
      simp [hr, hm, hg, Failure.reportAt, hoperation]
  · rw [List.count_eq_countP, List.countP_map]
    apply RequestOutcome.countP_reports
    intro o ho
    have hkey : ∀ (f : Failure) (own : String),
        (f.reportAt (compileOrigin own)).origin.languageKey = own := fun _ _ => rfl
    rcases (haccounted o ho).reports_cases with ⟨hr, hm, -⟩ | ⟨hr, hm, hg⟩ | ⟨message, hr, hm, -⟩
    · simp [hr, hm]
    · have hother : o.key.language ≠ language := by
        rintro rfl
        rw [hlanguage] at hg
        exact Bool.noConfusion hg
      simp [hr, hm, hkey, hother]
    · by_cases hsame : o.key.language = language <;> simp [hr, hm, hkey, hsame]

end Services

end SourceBlocks
