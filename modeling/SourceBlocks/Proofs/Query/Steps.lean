import SourceBlocks.Proofs.Query.History
import SourceBlocks.Proofs.Query.Outcomes

/-! # Operations as steps

Each operation on the cache of queries is a row of steps: requests for one key each, a sweep, or a
clearing. A run of operations is the run of their steps. -/

namespace SourceBlocks

/-- The least that is done with the cache of queries. -/
inductive QueryStep where
  | request (key : QueryKey)
  | sweep
  | clear
  deriving DecidableEq

namespace QueryOperation

def lookups (language : String) (query : Option Query) : List QueryStep :=
  query.toList.map fun q => .request ⟨language, q.text⟩

def steps : QueryOperation → List QueryStep
  | .compile key => [.request key]
  | .validate key => [.request key]
  | .primary language => lookups language (Catalogue.primaryOf? language)
  | .fallback language => lookups language (Catalogue.fallbackOf? language)
  | .preload languages =>
    languages.flatMap fun language => lookups language (Catalogue.primaryOf? language)
  | .sweep => [.sweep]
  | .clear => [.clear]

end QueryOperation

namespace Services

def step (s : Services) (env : Environment) : QueryStep → Services
  | .request key => (s.compile env key).2
  | .sweep => (s.sweep env).2
  | .clear => { s with cache := s.cache.clear }

def runSteps (s : Services) (env : Environment) (steps : List QueryStep) : Services :=
  steps.foldl (fun s st => s.step env st) s

/-- The outcomes of the requests among the steps of a run. -/
def outcomes (s : Services) (env : Environment) : List QueryStep → List RequestOutcome
  | [] => []
  | .request key :: rest =>
    s.cache.outcome env.compiler (env.clock s.readings) key ::
      (s.step env (.request key)).outcomes env rest
  | .sweep :: rest => (s.step env .sweep).outcomes env rest
  | .clear :: rest => (s.step env .clear).outcomes env rest

variable (env : Environment)

/-- What each step keeps, a run keeps. -/
theorem runSteps_induction {P : Services → Prop} (step : ∀ s st, P s → P (Services.step s env st))
    (steps : List QueryStep) : ∀ {s : Services}, P s → P (s.runSteps env steps) := by
  induction steps with
  | nil => exact fun h => h
  | cons st rest ih => exact fun h => ih (step _ st h)

theorem runSteps_append (s : Services) (steps more : List QueryStep) :
    s.runSteps env (steps ++ more) = (s.runSteps env steps).runSteps env more :=
  List.foldl_append

theorem outcomes_append (steps more : List QueryStep) : ∀ s : Services,
    s.outcomes env (steps ++ more) =
      s.outcomes env steps ++ (s.runSteps env steps).outcomes env more := by
  induction steps with
  | nil => exact fun _ => rfl
  | cons st rest ih =>
    intro s
    cases st with
    | request key => exact congrArg (_ :: ·) (ih _)
    | sweep => exact ih _
    | clear => exact ih _

theorem compileQuery_eq_runSteps (s : Services) (language : String) (query : Option Query) :
    (s.compileQuery env language query).2 =
      s.runSteps env (QueryOperation.lookups language query) := by
  cases query <;> rfl

theorem preload_eq_runSteps (languages : List String) : ∀ s : Services,
    (s.preload env languages).2 =
      s.runSteps env (QueryOperation.preload languages).steps := by
  induction languages with
  | nil => exact fun _ => rfl
  | cons language rest ih =>
    intro s
    have hfirst := compileQuery_eq_runSteps env s language (Catalogue.primaryOf? language)
    rw [QueryOperation.steps, List.flatMap_cons, runSteps_append, ← hfirst]
    exact ih _

theorem applyQuery_eq_runSteps (s : Services) (op : QueryOperation) :
    s.applyQuery env op = s.runSteps env op.steps := by
  cases op with
  | compile key => rfl
  | validate key => rfl
  | primary language => exact compileQuery_eq_runSteps env s language _
  | fallback language => exact compileQuery_eq_runSteps env s language _
  | preload languages => exact preload_eq_runSteps env languages s
  | sweep => rfl
  | clear => rfl

/-- A run of operations is the run of their steps. -/
theorem runQueries_eq_runSteps (history : List QueryOperation) : ∀ s : Services,
    s.runQueries env history = s.runSteps env (history.flatMap QueryOperation.steps) := by
  induction history with
  | nil => exact fun _ => rfl
  | cons op rest ih =>
    intro s
    rw [List.flatMap_cons, runSteps_append, ← applyQuery_eq_runSteps]
    exact ih _

theorem readings_reportIfAny (s : Services) (failure : Option Failure) (origin : Origin) :
    (s.reportIfAny failure origin).readings = s.readings := by
  cases failure <;> rfl

theorem readings_compile (s : Services) (key : QueryKey) :
    (s.compile env key).2.readings = s.readings + 1 :=
  readings_reportIfAny ..

theorem ttl_step (s : Services) (st : QueryStep) : (s.step env st).cache.ttl = s.cache.ttl := by
  cases st with
  | request key =>
    show (s.compile env key).2.cache.ttl = s.cache.ttl
    rw [cache_compile, QueryCache.ttl_request]
  | sweep => rfl
  | clear => rfl

theorem ttl_runSteps (steps : List QueryStep) (s : Services) :
    (s.runSteps env steps).cache.ttl = s.cache.ttl :=
  runSteps_induction env (fun t st h => (ttl_step env t st).trans h) steps rfl

section WellFormed

variable {env : Environment} {room : Nat} {s : Services}

theorem wellFormed_step (h : s.cache.WellFormed env.compiler room) (st : QueryStep) :
    (s.step env st).cache.WellFormed env.compiler room := by
  cases st with
  | request key => exact cache_compile s env key ▸ h.request _ key
  | sweep => exact h.sweep _
  | clear => exact h.clear

theorem wellFormed_runSteps (steps : List QueryStep) (h : s.cache.WellFormed env.compiler room) :
    (s.runSteps env steps).cache.WellFormed env.compiler room :=
  runSteps_induction (P := fun s => s.cache.WellFormed env.compiler room) env
    (fun _ st h => wellFormed_step h st) steps h

end WellFormed

/-- A clock that counts its readings. -/
def countingEnvironment : Environment := ⟨{}, sharedCompiler, id⟩

end Services

end SourceBlocks
