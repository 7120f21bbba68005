import Mathlib.Order.Monotone.Basic
import SourceBlocks.Proofs.Query.Alike
import SourceBlocks.Proofs.Query.Steps

/-! # Sweeps do not show

Leave sweeps out of a history and do all else at the same times: each request comes to the same. Only
the room that expired entries take is given back earlier or later, and they give it up before any
entry that has not expired. -/

namespace SourceBlocks

/-- The step reads the clock, once. -/
def QueryStep.readsClock : QueryStep → Bool
  | .request _ => true
  | .sweep => true
  | .clear => false

def QueryOperation.readings (op : QueryOperation) : Nat := op.steps.countP QueryStep.readsClock

/-- An operation and the number of the clock reading that it begins with. -/
structure ScheduledOperation where
  start : Nat
  operation : QueryOperation

/-- The operations of a history as they come one after the other. -/
def schedule (start : Nat) : List QueryOperation → List ScheduledOperation
  | [] => []
  | op :: rest => ⟨start, op⟩ :: schedule (start + op.readings) rest

/-- The first history is the second one with some sweeps left out. -/
inductive WithoutSweeps : List ScheduledOperation → List ScheduledOperation → Prop where
  | nil : WithoutSweeps [] []
  | keep (o : ScheduledOperation) {fewer history : List ScheduledOperation} :
    WithoutSweeps fewer history → WithoutSweeps (o :: fewer) (o :: history)
  | sweep (start : Nat) {fewer history : List ScheduledOperation} :
    WithoutSweeps fewer history → WithoutSweeps fewer (⟨start, .sweep⟩ :: history)

namespace Services

/-- The outcomes of a history whose operations begin with the readings that it says. -/
def outcomesAt (s : Services) (env : Environment) :
    List ScheduledOperation → List RequestOutcome
  | [] => []
  | o :: rest =>
    let s : Services := { s with readings := o.start }
    s.outcomes env o.operation.steps ++ (s.applyQuery env o.operation).outcomesAt env rest

/-- Services at the same reading whose caches are alike. -/
structure Alike (env : Environment) (room : Nat) (s t : Services) : Prop where
  readings : s.readings = t.readings
  cache : QueryCache.Alike env.compiler room (env.clock s.readings) s.cache t.cache

variable {env : Environment} {room : Nat} {s t : Services}

theorem readings_step (env : Environment) (s : Services) (st : QueryStep) :
    (s.step env st).readings = s.readings + if st.readsClock then 1 else 0 := by
  cases st with
  | request key => exact readings_compile env s key
  | sweep => rfl
  | clear => rfl

theorem readings_runSteps (env : Environment) (steps : List QueryStep) : ∀ s : Services,
    (s.runSteps env steps).readings = s.readings + steps.countP QueryStep.readsClock := by
  induction steps with
  | nil => exact fun _ => rfl
  | cons st rest ih =>
    intro s
    rw [runSteps, List.foldl_cons, ← runSteps, ih, readings_step, List.countP_cons, Nat.add_assoc,
      Nat.add_comm (List.countP _ rest)]

/-- A request at one reading comes to the same in alike services. -/
theorem Alike.request (hclock : StrictMono env.clock) (h : s.Alike env room t) (key : QueryKey) :
    s.cache.outcome env.compiler (env.clock s.readings) key =
        t.cache.outcome env.compiler (env.clock t.readings) key ∧
      (s.step env (.request key)).Alike env room (t.step env (.request key)) := by
  have hnext : env.clock s.readings < env.clock (s.readings + 1) := hclock (Nat.lt_succ_self _)
  obtain ⟨hsame, hafter⟩ := h.cache.request hnext key
  refine ⟨h.readings ▸ hsame, ?_, ?_⟩
  · rw [readings_step, readings_step, h.readings]
  · rw [readings_step]
    show QueryCache.Alike env.compiler room _ (s.compile env key).2.cache (t.compile env key).2.cache
    rw [cache_compile, cache_compile, ← h.readings]
    exact hafter

theorem Alike.sweep (hclock : StrictMono env.clock) (h : s.Alike env room t) :
    (s.step env .sweep).Alike env room (t.step env .sweep) := by
  have hlater := h.cache.sweep.later (hclock.monotone (Nat.le_succ s.readings))
  refine ⟨congrArg (· + 1) h.readings, ?_⟩
  show QueryCache.Alike env.compiler room (env.clock (s.readings + 1))
    (s.cache.sweep (env.clock s.readings)).2 (t.cache.sweep (env.clock t.readings)).2
  rw [← h.readings]
  exact hlater

/-- Alike services do the same and stay alike. -/
theorem Alike.runSteps (hclock : StrictMono env.clock) (steps : List QueryStep) :
    ∀ {s t : Services}, s.Alike env room t →
      s.outcomes env steps = t.outcomes env steps ∧
        (s.runSteps env steps).Alike env room (t.runSteps env steps) := by
  induction steps with
  | nil => exact fun h => ⟨rfl, h⟩
  | cons st rest ih =>
    intro s t h
    cases st with
    | request key =>
      obtain ⟨hsame, hafter⟩ := h.request hclock key
      obtain ⟨hrest, hend⟩ := ih hafter
      refine ⟨?_, hend⟩
      rw [outcomes, outcomes, hsame, hrest]
    | sweep => exact ih (h.sweep hclock)
    | clear => exact ih ⟨h.readings, h.cache.clear⟩

/-- A history without some of its sweeps keeps up with the whole of it. A sweep that is left out
leaves the caches alike at its reading, and so at every later one. -/
theorem outcomesAt_eq (hclock : StrictMono env.clock) (history : List QueryOperation) :
    ∀ {fewer : List ScheduledOperation} {s t : Services},
      WithoutSweeps fewer (schedule t.readings history) →
      QueryCache.Alike env.compiler room (env.clock t.readings) s.cache t.cache →
        s.outcomesAt env fewer = t.outcomes env (history.flatMap QueryOperation.steps) := by
  induction history with
  | nil =>
    intro fewer s t hfewer _
    cases hfewer
    rfl
  | cons op rest ih =>
    intro fewer s t hfewer hcache
    have hreadings := readings_runSteps env op.steps t
    rw [schedule] at hfewer
    rw [List.flatMap_cons, outcomes_append]
    cases hfewer with
    | keep _ hrest =>
      have halike : Services.Alike env room { s with readings := t.readings } t := ⟨rfl, hcache⟩
      obtain ⟨hsame, hafter⟩ := halike.runSteps hclock op.steps
      rw [outcomesAt]
      dsimp only
      rw [hsame, applyQuery_eq_runSteps]
      congr 1
      apply ih
      · rwa [hreadings]
      · exact hafter.readings ▸ hafter.cache
    | sweep _ hrest =>
      have hlater := hcache.sweepRight.later (hclock.monotone (Nat.le_succ t.readings))
      exact @ih fewer s (t.step env .sweep) hrest hlater

/-- Services that a history has led to are alike with themselves. -/
theorem alike_runSteps_empty (hclock : StrictMono env.clock) (capacity ttl : Nat)
    (steps : List QueryStep) :
    let s := (ofCache (.empty capacity ttl)).runSteps env steps
    s.Alike env (max capacity 1) s := by
  have hstart : (ofCache (.empty capacity ttl)).Alike env (max capacity 1)
      (ofCache (.empty capacity ttl)) := ⟨rfl, .empty env.compiler capacity ttl _⟩
  exact (hstart.runSteps hclock steps).2

/-- Under a clock that moves on, each request comes to the same without sweeps: it hits or not, and
its handle, its report and its entry are the same. An entry that has not expired is never pushed out
while an expired one is cached. -/
theorem outcomes_withoutSweeps (env : Environment) (hclock : StrictMono env.clock)
    (capacity ttl : Nat) (history : List QueryOperation) :
    let s := ofCache (.empty capacity ttl)
    let steps := history.flatMap QueryOperation.steps
    (∀ fewer, WithoutSweeps fewer (schedule 0 history) →
      s.outcomesAt env fewer = s.outcomes env steps) ∧
    ∀ before key after, steps = before ++ .request key :: after →
      let there := s.runSteps env before
      let now := env.clock there.readings
      ∀ e ∈ there.cache.entries, there.cache.isExpired now e = false →
        e.key ∉ (there.step env (.request key)).cache.entries.map CacheEntry.key →
        ∀ f ∈ there.cache.entries, there.cache.isExpired now f = false := by
  intro s steps
  constructor
  · intro fewer hfewer
    exact outcomesAt_eq hclock history hfewer (.empty env.compiler capacity ttl _)
  · intro before key after _ there now e he hlive hgone
    have hthere : QueryCache.Alike env.compiler (max capacity 1) now there.cache there.cache :=
      (alike_runSteps_empty hclock capacity ttl before).cache
    obtain ⟨es, -, hrecent, -⟩ := hthere.listed
    have hstep : (there.step env (.request key)).cache =
        (there.cache.request env.compiler now key).cache := cache_compile there env key
    rw [hstep] at hgone
    exact hrecent.all_live_of_evicted hthere.left he hlive hgone

/-- With room for two, the text that rust rejects expires before the sweep, while the one that python
accepts is used again and again. -/
def sweptHistory : List QueryOperation :=
  [.compile ⟨"rust", sharedText⟩, .compile ⟨"python", sharedText⟩, .validate ⟨"python", sharedText⟩,
    .compile ⟨"python", sharedText⟩, .sweep, .preload ["python"], .compile ⟨"python", sharedText⟩,
    .compile ⟨"rust", sharedText⟩]

/-- The history without its sweep, at the same readings. -/
def unsweptSchedule : List ScheduledOperation :=
  (schedule 0 sweptHistory).take 4 ++ (schedule 0 sweptHistory).drop 5

/-- The state in which the last request of the history finds the cache full. -/
def fullServices : Services :=
  (ofCache (.empty 2 3)).runSteps countingEnvironment
    ((sweptHistory.flatMap QueryOperation.steps).take 7)

/-- Without the sweep the preloaded query pushes out the expired text, and what is used in time is
found again. The last request pushes out a query that has not expired, and none had. -/
theorem outcomes_withoutSweeps_sweptHistory :
    StrictMono countingEnvironment.clock ∧ WithoutSweeps unsweptSchedule (schedule 0 sweptHistory) ∧
    ((ofCache (.empty 2 3)).outcomesAt countingEnvironment unsweptSchedule).map RequestOutcome.hit =
      [false, false, true, true, false, true, false] ∧
    fullServices.cache.entries.length = 2 ∧
    ∀ f ∈ fullServices.cache.entries,
      fullServices.cache.isExpired (countingEnvironment.clock fullServices.readings) f = false := by
  have hclock : StrictMono countingEnvironment.clock := strictMono_id
  have hfewer : WithoutSweeps unsweptSchedule (schedule 0 sweptHistory) :=
    .keep _ (.keep _ (.keep _ (.keep _ (.sweep 4 (.keep _ (.keep _ (.keep _ .nil)))))))
  obtain ⟨hsame, hevicted⟩ := outcomes_withoutSweeps countingEnvironment hclock 2 3 sweptHistory
  have hlast : sweptHistory.flatMap QueryOperation.steps =
      (sweptHistory.flatMap QueryOperation.steps).take 7 ++
        .request ⟨"rust", sharedText⟩ :: [] := by decide +kernel
  obtain ⟨e, he, hlive, hgone⟩ : ∃ e ∈ fullServices.cache.entries,
      fullServices.cache.isExpired (countingEnvironment.clock fullServices.readings) e = false ∧
      e.key ∉ (fullServices.step countingEnvironment
        (.request ⟨"rust", sharedText⟩)).cache.entries.map CacheEntry.key := by decide +kernel
  refine ⟨hclock, hfewer, ?_, by decide +kernel, ?_⟩
  · rw [hsame unsweptSchedule hfewer]
    decide +kernel
  · rw [fullServices] at he hlive hgone ⊢
    exact hevicted _ _ _ hlast e he hlive hgone

end Services

end SourceBlocks
