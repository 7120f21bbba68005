import SourceBlocks.Extraction.Services
import SourceBlocks.Proofs.Query.WellFormed

/-! # Queries over a history

Texts are compiled, validated, loaded in advance, swept and cleared in any order and at any times. No
such history shows in what a text compiles to, and none spoils the cache. -/

namespace SourceBlocks

/-- One thing that is done with the cache of queries. -/
inductive QueryOperation where
  | compile (key : QueryKey)
  | validate (key : QueryKey)
  | primary (language : String)
  | fallback (language : String)
  | preload (languages : List String)
  | sweep
  | clear

namespace Services

def applyQuery (s : Services) (env : Environment) : QueryOperation → Services
  | .compile key => (s.compile env key).2
  | .validate key => (s.validate env key).2
  | .primary language => (s.primary env language).2
  | .fallback language => (s.fallback env language).2
  | .preload languages => (s.preload env languages).2
  | .sweep => (s.sweep env).2
  | .clear => { s with cache := s.cache.clear }

def runQueries (s : Services) (env : Environment) (history : List QueryOperation) : Services :=
  history.foldl (fun s op => s.applyQuery env op) s

theorem cache_reportIfAny (s : Services) (failure : Option Failure) (origin : Origin) :
    (s.reportIfAny failure origin).cache = s.cache := by
  cases failure <;> rfl

theorem cache_compile (s : Services) (env : Environment) (key : QueryKey) :
    (s.compile env key).2.cache =
      (s.cache.request env.compiler (env.clock s.readings) key).cache :=
  cache_reportIfAny ..

section Induction

variable {P : QueryCache → Prop} {env : Environment}
  (request : ∀ c now key, P c → P (c.request env.compiler now key).cache)
include request

theorem compileQuery_induction {s : Services} (h : P s.cache) (language : String)
    (query : Option Query) : P (s.compileQuery env language query).2.cache := by
  cases query with
  | none => exact h
  | some q =>
    have hrequest := request s.cache (env.clock s.readings) ⟨language, q.text⟩ h
    rwa [← cache_compile] at hrequest

theorem preload_induction (languages : List String) :
    ∀ {s : Services}, P s.cache → P (s.preload env languages).2.cache := by
  induction languages with
  | nil => exact fun h => h
  | cons language rest ih =>
    intro s h
    exact ih (compileQuery_induction request h language (Catalogue.primaryOf? language))

/-- What requests, sweeps and a clearing keep, each operation keeps. -/
theorem applyQuery_induction (sweep : ∀ c now, P c → P (QueryCache.sweep c now).2)
    (clear : ∀ c, P c → P (QueryCache.clear c)) {s : Services} (h : P s.cache)
    (op : QueryOperation) : P (s.applyQuery env op).cache := by
  have hcompile : ∀ key, P (s.compile env key).2.cache := by
    intro key
    rw [cache_compile]
    exact request _ _ _ h
  cases op with
  | compile key => exact hcompile key
  | validate key => exact hcompile key
  | primary language => exact compileQuery_induction request h language _
  | fallback language => exact compileQuery_induction request h language _
  | preload languages => exact preload_induction request languages h
  | sweep => exact sweep _ _ h
  | clear => exact clear _ h

theorem runQueries_induction (sweep : ∀ c now, P c → P (QueryCache.sweep c now).2)
    (clear : ∀ c, P c → P (QueryCache.clear c)) (history : List QueryOperation) :
    ∀ {s : Services}, P s.cache → P (s.runQueries env history).cache := by
  induction history with
  | nil => exact fun h => h
  | cons op rest ih => exact fun h => ih (applyQuery_induction request sweep clear h op)

end Induction

theorem wellFormed_runQueries (env : Environment) (capacity ttl : Nat)
    (history : List QueryOperation) :
    ((ofCache (.empty capacity ttl)).runQueries env history).cache.WellFormed env.compiler
      (max capacity 1) :=
  runQueries_induction (fun _ now key h => h.request now key) (fun _ now h => h.sweep now)
    (fun _ h => h.clear) history (QueryCache.wellFormed_empty env.compiler capacity ttl)

end Services

theorem QueryCompiler.program?_eq_some_iff {compiler : QueryCompiler} {key : QueryKey}
    {program : Program} : compiler.program? key = some program ↔
      Language.hasGrammar key.language = true ∧ compiler key.language key.text = .ok program := by
  unfold QueryCompiler.program?
  cases Language.hasGrammar key.language <;> cases compiler key.language key.text <;>
    simp [Except.toOption]

/-- An answer is there just when the key has a grammar and compiles, and it is then of this key and
holds what it compiles to. -/
theorem QueryCompiler.Answers.iff {compiler : QueryCompiler} {key : QueryKey}
    {answer : Option QueryHandle} (h : compiler.Answers key answer) :
    (answer.isSome = true ↔ Language.hasGrammar key.language = true ∧
      ∃ program, compiler key.language key.text = .ok program) ∧
    ∀ handle ∈ answer, handle.key = key ∧
      compiler key.language key.text = .ok handle.program := by
  unfold QueryCompiler.Answers at h
  cases answer with
  | none =>
    have hnone : compiler.program? key = none := Option.map_eq_none_iff.1 h.symm
    refine ⟨?_, fun handle hmem => absurd hmem (by simp)⟩
    simp only [Option.isSome_none, Bool.false_eq_true, false_iff, not_and, not_exists]
    intro hgrammar program hcompiled
    have hsome := QueryCompiler.program?_eq_some_iff.2 ⟨hgrammar, hcompiled⟩
    rw [hnone] at hsome
    exact absurd hsome (by simp)
  | some handle =>
    obtain ⟨program, hprogram, hcontent⟩ := Option.map_eq_some_iff.1 h.symm
    obtain ⟨hkey, hsame⟩ := Prod.mk.inj hcontent
    obtain ⟨hgrammar, hcompiled⟩ := QueryCompiler.program?_eq_some_iff.1 hprogram
    rw [hsame] at hcompiled
    refine ⟨⟨fun _ => ⟨hgrammar, _, hcompiled⟩, fun _ => rfl⟩, ?_⟩
    intro other hother
    obtain rfl := Option.mem_some_iff.1 hother
    exact ⟨hkey.symm, hcompiled⟩

namespace Services

/-- After any history a text compiles to what the compiler makes of it, for its own language, or to
nothing. The cache holds each key once, within its room, and every entry is of a language with a
grammar, was used, and either has a query that was compiled from its key or the reason why there is
none. -/
theorem compile_transparent (env : Environment) (capacity ttl : Nat)
    (history : List QueryOperation) :
    let s := (ofCache (.empty capacity ttl)).runQueries env history
    (∀ key,
      ((s.compile env key).1.isSome = true ↔ Language.hasGrammar key.language = true ∧
        ∃ program, env.compiler key.language key.text = .ok program) ∧
      ∀ handle ∈ (s.compile env key).1,
        handle.key = key ∧ env.compiler key.language key.text = .ok handle.program) ∧
    s.cache.entries.length ≤ max 1 capacity ∧
    (s.cache.entries.map CacheEntry.key).Nodup ∧
    ∀ e ∈ s.cache.entries,
      Language.hasGrammar e.key.language = true ∧ 1 ≤ e.uses ∧
      (e.isValid = true ↔ e.handle?.isSome = true) ∧
      (e.handle?.isSome = true ↔ e.error? = none) ∧
      (e.isValid = true ↔ ∃ program, env.compiler e.key.language e.key.text = .ok program) ∧
      (∀ handle ∈ e.handle?, handle.key = e.key ∧
        env.compiler e.key.language e.key.text = .ok handle.program) ∧
      ∀ message, e.error? = some message ↔
        env.compiler e.key.language e.key.text = .error message := by
  intro s
  have hcache : s.cache.WellFormed env.compiler (max capacity 1) :=
    wellFormed_runQueries env capacity ttl history
  have hsize : s.cache.entries.length ≤ max 1 capacity := by
    have hroom := hcache.size
    omega
  refine ⟨fun key => ?_, hsize, hcache.once, fun e he => ?_⟩
  · exact (hcache.sound.request (env.clock s.readings) key).1.iff
  · have hentry := hcache.entry e he
    exact ⟨hentry.grammar, hentry.used, hentry.agrees.valid, hentry.agrees.error,
      hentry.isValid_iff, hentry.answers.iff.2, hentry.reflects.error⟩

/-- A text that compiles for one language and not for another. -/
def sharedText : String := "(function_definition) @function"

def sharedCompiler : QueryCompiler := fun language _ =>
  if language = "python" then .ok ⟨["function"], [Catalogue.block "function_definition" "function"]⟩
  else .error "Invalid node type function_definition"

/-- The text is compiled for both languages, expires, is swept and is evicted by itself. -/
def sharedHistory : List QueryOperation :=
  [.compile ⟨"rust", sharedText⟩, .validate ⟨"python", sharedText⟩, .primary "cobol", .sweep,
    .compile ⟨"python", sharedText⟩, .preload ["python"], .compile ⟨"rust", sharedText⟩]

/-- In a cache with room for one query the languages do not get into each other's way. -/
theorem compile_transparent_sharedText :
    let env : Environment := ⟨{}, sharedCompiler, fun n => 3 * n⟩
    let s := (ofCache (.empty 0 5)).runQueries env sharedHistory
    (∃ handle, (s.compile env ⟨"python", sharedText⟩).1 = some handle ∧
      handle.key = ⟨"python", sharedText⟩) ∧
    (s.compile env ⟨"rust", sharedText⟩).1.isSome = false := by
  intro env s
  obtain ⟨hanswers, -⟩ := compile_transparent env 0 5 sharedHistory
  obtain ⟨hpython, hown⟩ := hanswers ⟨"python", sharedText⟩
  have hcompiled : ∃ program, sharedCompiler "python" sharedText = .ok program :=
    ⟨_, if_pos rfl⟩
  obtain ⟨handle, hhandle⟩ := Option.isSome_iff_exists.1 (hpython.2 ⟨by decide, hcompiled⟩)
  have hkey := (hown handle (Option.mem_def.2 hhandle)).1
  refine ⟨⟨handle, hhandle, hkey⟩, ?_⟩
  rw [Bool.eq_false_iff]
  intro hrust
  obtain ⟨-, program, hcompiled⟩ := (hanswers ⟨"rust", sharedText⟩).1.1 hrust
  exact absurd hcompiled (by simp [env, sharedCompiler])

end Services

end SourceBlocks
