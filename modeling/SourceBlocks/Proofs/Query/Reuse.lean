import SourceBlocks.Proofs.Query.Reports

/-! # Queries that are used again

An entry stays as a request left it until the next request for its key, or goes away. So that next
request answers with the same handle and reports nothing, unless the time between the two is longer
than the time to live: then it compiles the text again, to a handle that no request was given
before. -/

namespace SourceBlocks

namespace QueryCache

/-- The numbers of all cached handles have been given out. -/
def Numbered (c : QueryCache) : Prop :=
  ∀ e ∈ c.entries, ∀ handle ∈ e.handle?, handle.serial < c.nextSerial

variable {compiler : QueryCompiler} {room now : Nat} {c d : QueryCache} {key other : QueryKey}
  {e : CacheEntry}

theorem handle?_touchKey (key : QueryKey) (now : Nat) (e : CacheEntry) :
    (e.touchKey key now).handle? = e.handle? := by
  unfold CacheEntry.touchKey
  split <;> rfl

/-- The next new entry pushes out the one of this key: the cache is full, and no entry was used
longer ago. -/
def evicts (c : QueryCache) (key : QueryKey) : Bool :=
  c.capacity ≤ c.entries.length && (oldest? c.entries).any fun e => e.key == key

theorem mem_makeRoom (he : e ∈ c.entries) (hkept : c.evicts e.key = false) :
    e ∈ c.makeRoom.entries := by
  unfold makeRoom
  split
  case isTrue => exact he
  case isFalse hfull =>
    rw [evicts, decide_eq_true (Nat.le_of_not_lt hfull), Bool.true_and] at hkept
    split
    case h_1 o ho =>
      rw [ho, Option.any_some] at hkept
      have hother : e.key ≠ o.key := (beq_eq_false_iff_ne.1 hkept).symm
      exact List.mem_filter.2 ⟨he, by simpa using hother⟩
    case h_2 => exact he

/-- A request for another key leaves an entry as it is, unless a new entry pushes it out. -/
theorem mem_request (he : e ∈ c.entries) (hother : e.key ≠ other)
    (hkept : c.isHit now other = false → Language.hasGrammar other.language = true →
      (c.erase other).evicts e.key = false) :
    e ∈ (c.request compiler now other).cache.entries := by
  cases hhit : c.isHit now other with
  | true =>
    obtain ⟨own, hfound, hlive⟩ := isHit_iff_find?.1 hhit
    rw [request_of_hit hfound hlive]
    exact List.mem_map.2 ⟨e, he, if_neg hother⟩
  | false =>
    have hrest : e ∈ (c.erase other).entries := List.mem_filter.2 ⟨he, by simpa using hother⟩
    rw [request_of_miss hhit]
    cases hgrammar : Language.hasGrammar other.language with
    | false =>
      rw [compileNew_of_no_grammar hgrammar]
      exact hrest
    | true =>
      rw [compileNew_of_grammar hgrammar (c.find?_erase other)]
      exact List.mem_cons_of_mem _ (mem_makeRoom hrest (hkept hhit hgrammar))

/-- After a request the key has the entry that the request was answered from. -/
theorem find?_request (hgrammar : Language.hasGrammar key.language = true) (c : QueryCache)
    (compiler : QueryCompiler) (now : Nat) :
    ∃ e, (c.request compiler now key).cache.find? key = some e ∧
      e.handle? = (c.request compiler now key).handle ∧ e.lastUsed = now := by
  cases hhit : c.isHit now key with
  | true =>
    obtain ⟨e, hfound, hlive⟩ := isHit_iff_find?.1 hhit
    have hanswer := outcome_of_hit hfound hlive compiler
    exact ⟨e.touch now, congrArg RequestOutcome.entry hanswer,
      (congrArg RequestOutcome.handle hanswer).symm, rfl⟩
  | false =>
    have hanswer := outcome_of_miss hhit hgrammar compiler
    refine ⟨_, congrArg RequestOutcome.entry hanswer, ?_, CacheEntry.lastUsed_ofResult ..⟩
    rw [CacheEntry.handle?_ofResult]
    exact (congrArg RequestOutcome.handle hanswer).symm

theorem Numbered.of_sublist (h : c.Numbered) (hsub : d.entries.Sublist c.entries)
    (hserial : c.nextSerial ≤ d.nextSerial) : d.Numbered := fun e he handle hhandle =>
  Nat.lt_of_lt_of_le (h e (hsub.subset he) handle hhandle) hserial

/-- The handle of a text that is compiled anew has the next number, and the number after it is the
next one then. -/
theorem serial_of_mem_compileResult {handle : QueryHandle}
    (h : handle ∈ (c.compileResult compiler key).toOption) : handle.serial = c.nextSerial ∧
      c.nextSerial < c.nextSerial + (c.compileResult compiler key).toOption.toList.length := by
  rw [Option.mem_def] at h
  rw [h]
  refine ⟨?_, Nat.lt_succ_self _⟩
  unfold compileResult at h
  cases hcompiled : compiler key.language key.text with
  | ok program =>
    rw [hcompiled] at h
    obtain rfl := Option.some.inj h
    rfl
  | error message => rw [hcompiled] at h; exact absurd h (by simp [Except.map, Except.toOption])

/-- Numbers are given out in turn: a request answers with a handle of the cache or with one of the
next number. -/
theorem Numbered.request (h : c.Numbered) (compiler : QueryCompiler) (now : Nat) (key : QueryKey) :
    (c.request compiler now key).cache.Numbered ∧
      c.nextSerial ≤ (c.request compiler now key).cache.nextSerial ∧
      ∀ handle ∈ (c.request compiler now key).handle,
        handle.serial < (c.request compiler now key).cache.nextSerial := by
  cases hhit : c.isHit now key with
  | true =>
    obtain ⟨e, hfound, hlive⟩ := isHit_iff_find?.1 hhit
    rw [request_of_hit hfound hlive]
    refine ⟨?_, Nat.le_refl _, h e (List.mem_of_find?_eq_some hfound)⟩
    intro d hd handle hhandle
    obtain ⟨old, hold, rfl⟩ := List.mem_map.1 hd
    rw [handle?_touchKey] at hhandle
    exact h old hold handle hhandle
  | false =>
    rw [request_of_miss hhit]
    cases hgrammar : Language.hasGrammar key.language with
    | false =>
      rw [compileNew_of_no_grammar hgrammar]
      exact ⟨h.of_sublist List.filter_sublist (Nat.le_refl _), Nat.le_refl _,
        fun handle hhandle => absurd hhandle (Option.not_mem_none _)⟩
    | true =>
      rw [compileNew_of_grammar hgrammar (c.find?_erase key)]
      have hnew : ∀ handle ∈ ((c.erase key).compileResult compiler key).toOption,
          handle.serial < c.nextSerial +
            ((c.erase key).compileResult compiler key).toOption.toList.length := by
        intro handle hhandle
        obtain ⟨hserial, hless⟩ := serial_of_mem_compileResult hhandle
        exact hserial ▸ hless
      refine ⟨?_, Nat.le_add_right _ _, hnew⟩
      intro d hd handle hhandle
      rcases List.mem_cons.1 hd with rfl | hkept
      · rw [CacheEntry.handle?_ofResult] at hhandle
        exact hnew handle hhandle
      · have hold : d ∈ c.entries :=
          (List.mem_filter.1 ((c.erase key).makeRoom_sublist.subset hkept)).1
        exact Nat.lt_of_lt_of_le (h d hold handle hhandle) (Nat.le_add_right _ _)

end QueryCache

namespace Services

variable {env : Environment} {room : Nat} {s : Services} {key : QueryKey} {e : CacheEntry}

/-- The step takes the entry of the key out of the cache: by a clearing, by a sweep once it has
expired, or by an eviction for a text that is compiled anew. -/
def loses (s : Services) (env : Environment) (key : QueryKey) : QueryStep → Bool
  | .request other =>
    !s.cache.isHit (env.clock s.readings) other && Language.hasGrammar other.language &&
      (s.cache.erase other).evicts key
  | .sweep => (s.cache.find? key).any fun e => s.cache.isExpired (env.clock s.readings) e
  | .clear => true

/-- No step of the row takes the entry of the key out of the cache. -/
def spares (s : Services) (env : Environment) (key : QueryKey) : List QueryStep → Bool
  | [] => true
  | st :: rest => !s.loses env key st && (s.step env st).spares env key rest

/-- Between its requests the entry of a key stays as it is, if no step takes it out. -/
theorem find?_step (h : s.cache.WellFormed env.compiler room) {st : QueryStep}
    (hst : st ≠ .request key) (hkept : s.loses env key st = false)
    (hfound : s.cache.find? key = some e) : (s.step env st).cache.find? key = some e := by
  obtain ⟨he, hkey⟩ := h.find?_eq_some_iff.1 hfound
  refine (wellFormed_step h st).find?_eq_some_iff.2 ⟨?_, hkey⟩
  cases st with
  | request other =>
    have hother : e.key ≠ other := by
      rintro rfl
      exact hst (congrArg QueryStep.request hkey)
    show e ∈ (s.compile env other).2.cache.entries
    rw [cache_compile]
    apply QueryCache.mem_request he hother
    intro hmiss hgrammar
    rw [hkey]
    simpa [loses, hmiss, hgrammar] using hkept
  | sweep =>
    have hlive : s.cache.isExpired (env.clock s.readings) e = false := by
      simpa [loses, hfound] using hkept
    exact List.mem_filter.2 ⟨he, by simp [hlive]⟩
  | clear => exact Bool.noConfusion hkept

theorem find?_runSteps (steps : List QueryStep) : ∀ {s : Services},
    s.cache.WellFormed env.compiler room → .request key ∉ steps → s.spares env key steps = true →
      s.cache.find? key = some e → (s.runSteps env steps).cache.find? key = some e := by
  induction steps with
  | nil => exact fun _ _ _ h => h
  | cons st rest ih =>
    intro s h hnone hspared hfound
    rw [List.mem_cons, not_or] at hnone
    rw [spares, Bool.and_eq_true, Bool.not_eq_true'] at hspared
    exact ih (wellFormed_step h st) hnone.2 hspared.2
      (find?_step h (Ne.symm hnone.1) hspared.1 hfound)

theorem numbered_step (env : Environment) (h : s.cache.Numbered) (st : QueryStep) :
    (s.step env st).cache.Numbered ∧ s.cache.nextSerial ≤ (s.step env st).cache.nextSerial := by
  cases st with
  | request key =>
    obtain ⟨hafter, hserial, -⟩ := h.request env.compiler (env.clock s.readings) key
    rw [← cache_compile] at hafter hserial
    exact ⟨hafter, hserial⟩
  | sweep => exact ⟨h.of_sublist List.filter_sublist (Nat.le_refl _), Nat.le_refl _⟩
  | clear => exact ⟨h.of_sublist (List.nil_sublist _) (Nat.le_refl _), Nat.le_refl _⟩

/-- All handles that a run answered with have numbers that were given out. -/
theorem serial_lt_of_mem_outcomes (env : Environment) (steps : List QueryStep) :
    ∀ {s : Services}, s.cache.Numbered →
      s.cache.nextSerial ≤ (s.runSteps env steps).cache.nextSerial ∧
        ∀ o ∈ s.outcomes env steps, ∀ handle ∈ o.handle,
          handle.serial < (s.runSteps env steps).cache.nextSerial := by
  induction steps with
  | nil => exact fun _ => ⟨Nat.le_refl _, fun o ho => absurd ho List.not_mem_nil⟩
  | cons st rest ih =>
    intro s h
    obtain ⟨hnumbered, hserial⟩ := numbered_step env h st
    obtain ⟨hrest, hlater⟩ := ih hnumbered
    refine ⟨Nat.le_trans hserial hrest, ?_⟩
    cases st with
    | request key =>
      intro o ho handle hhandle
      rcases List.mem_cons.1 ho with rfl | hmore
      · obtain ⟨-, -, hanswer⟩ := h.request env.compiler (env.clock s.readings) key
        have hless := hanswer handle hhandle
        rw [← cache_compile] at hless
        exact Nat.lt_of_lt_of_le hless hrest
      · exact hlater o hmore handle hhandle
    | sweep => exact hlater
    | clear => exact hlater

theorem numbered_runSteps (steps : List QueryStep) (h : s.cache.Numbered) :
    (s.runSteps env steps).cache.Numbered :=
  runSteps_induction (P := fun s => s.cache.Numbered) env
    (fun _ st h => (numbered_step env h st).1) steps h

/-- The request compiles its text: its entry begins anew, its handle was not given to an earlier
request, and a text that does not compile is reported. -/
structure CompiledAnew (env : Environment) (s : Services) (key : QueryKey)
    (earlier : List RequestOutcome) : Prop where
  answer : (s.compile env key).1 = (s.cache.compileResult env.compiler key).toOption
  entry : (s.compile env key).2.cache.find? key =
    some (.ofResult key (s.cache.compileResult env.compiler key) (env.clock s.readings))
  fresh : ∀ handle ∈ (s.compile env key).1, ∀ o ∈ earlier, ∀ other ∈ o.handle,
    other.serial ≠ handle.serial
  reported : ∀ message, env.compiler key.language key.text = .error message →
    (s.compile env key).2.log = s.log.record
      ((Failure.queryRejected key.language message).reportAt (compileOrigin key.language))

theorem compile_of_hit (hfound : s.cache.find? key = some e)
    (hlive : s.cache.isExpired (env.clock s.readings) e = false) :
    (s.compile env key).1 = e.handle? ∧ (s.compile env key).2.log = s.log ∧
      (s.compile env key).2.cache.find? key = some (e.touch (env.clock s.readings)) := by
  have hanswer := QueryCache.outcome_of_hit hfound hlive env.compiler
  have hreports : (s.cache.outcome env.compiler (env.clock s.readings) key).reports = [] := by
    rw [hanswer]
    rfl
  refine ⟨congrArg RequestOutcome.handle hanswer, ?_, ?_⟩
  · rw [log_compile, hreports]
    rfl
  · rw [cache_compile]
    exact congrArg RequestOutcome.entry hanswer

theorem compiledAnew_of_miss (hmiss : s.cache.isHit (env.clock s.readings) key = false)
    (hgrammar : Language.hasGrammar key.language = true) {earlier : List RequestOutcome}
    (hearlier : ∀ o ∈ earlier, ∀ handle ∈ o.handle, handle.serial < s.cache.nextSerial) :
    s.CompiledAnew env key earlier := by
  have hanswer := QueryCache.outcome_of_miss hmiss hgrammar env.compiler
  have hhandle : (s.compile env key).1 = (s.cache.compileResult env.compiler key).toOption :=
    congrArg RequestOutcome.handle hanswer
  refine ⟨hhandle, ?_, ?_, ?_⟩
  · rw [cache_compile]
    exact congrArg RequestOutcome.entry hanswer
  · intro handle hmem o ho other hother
    rw [hhandle] at hmem
    rw [(QueryCache.serial_of_mem_compileResult hmem).1]
    exact Nat.ne_of_lt (hearlier o ho other hother)
  · intro message hrejected
    rw [log_compile, hanswer]
    unfold RequestOutcome.reports
    rw [QueryCache.rejection?_compileResult, hrejected]
    rfl

/-- What is compiled anew does not go unnoticed: it has a new handle, or is reported. -/
theorem CompiledAnew.not_reused {earlier : List RequestOutcome}
    (h : s.CompiledAnew env key earlier) {o : RequestOutcome} (ho : o ∈ earlier) :
    ¬ ((s.compile env key).1 = o.handle ∧ (s.compile env key).2.log = s.log) := by
  rintro ⟨hsame, hlog⟩
  cases hcompiled : env.compiler key.language key.text with
  | ok program =>
    have hhandle : (s.compile env key).1 = some ⟨s.cache.nextSerial, key, program⟩ := by
      rw [h.answer, QueryCache.compileResult, hcompiled]
      rfl
    exact h.fresh _ hhandle o ho _ (hsame ▸ hhandle) rfl
  | error message =>
    have htotal := congrArg FailureLog.total ((h.reported message hcompiled).symm.trans hlog)
    exact absurd htotal (Nat.succ_ne_self s.log.total)

/-- Two requests for one key with none between them and no step that takes its entry out. The second
answers from the entry that the first one left, and reports nothing, just when nothing expires or no
more than the time to live has passed; else it compiles the text anew. -/
theorem compile_again {ttl : Nat} (h : s.cache.WellFormed env.compiler room)
    (httl : s.cache.ttl = ttl) (hnumbered : s.cache.Numbered) {earlier : List RequestOutcome}
    (hearlier : ∀ o ∈ earlier, ∀ handle ∈ o.handle, handle.serial < s.cache.nextSerial)
    (hgrammar : Language.hasGrammar key.language = true) {between : List QueryStep}
    (hbetween : .request key ∉ between)
    (hspared : (s.compile env key).2.spares env key between = true) :
    let first := s.compile env key
    let last := first.2.runSteps env between
    let second := last.compile env key
    let inTime := ttl = 0 ∨ env.clock last.readings - env.clock s.readings ≤ ttl
    ∃ stored, last.cache.find? key = some stored ∧ stored.handle? = first.1 ∧
      (second.1 = stored.handle? ∧ second.2.log = last.log ↔ inTime) ∧
      (inTime → second.2.cache.find? key = some (stored.touch (env.clock last.readings))) ∧
      (¬ inTime → last.CompiledAnew env key
        (earlier ++ s.outcomes env (.request key :: between))) := by
  intro first last second inTime
  have hfirst : first.2.cache.WellFormed env.compiler room := wellFormed_step h (.request key)
  obtain ⟨stored, hleft, hhandle, hused⟩ :=
    QueryCache.find?_request hgrammar s.cache env.compiler (env.clock s.readings)
  rw [← cache_compile] at hleft
  have hstored : last.cache.find? key = some stored :=
    find?_runSteps between hfirst hbetween hspared hleft
  have httl : last.cache.ttl = ttl :=
    (ttl_runSteps env between first.2).trans ((ttl_step env s (.request key)).trans httl)
  have hexpired : last.cache.isExpired (env.clock last.readings) stored = true ↔ ¬ inTime := by
    rw [QueryCache.isExpired_eq_true_iff, httl, hused]
    simp only [inTime]
    omega
  refine ⟨stored, hstored, hhandle, ?_⟩
  by_cases hin : inTime
  · have hlive : last.cache.isExpired (env.clock last.readings) stored = false := by
      rw [Bool.eq_false_iff, Ne, hexpired]
      exact fun hnot => hnot hin
    obtain ⟨hanswer, hlog, hentry⟩ := compile_of_hit hstored hlive
    exact ⟨⟨fun _ => hin, fun _ => ⟨hanswer, hlog⟩⟩, fun _ => hentry, fun hnot => absurd hin hnot⟩
  · have hmiss : last.cache.isHit (env.clock last.readings) key = false := by
      rw [QueryCache.isHit, hstored, Option.any_some, hexpired.2 hin]
      rfl
    obtain ⟨hserial, hanswered⟩ :=
      serial_lt_of_mem_outcomes env (.request key :: between) hnumbered
    have hanew : last.CompiledAnew env key
        (earlier ++ s.outcomes env (.request key :: between)) := by
      apply compiledAnew_of_miss hmiss hgrammar
      intro o ho
      rcases List.mem_append.1 ho with hbefore | hsince
      · exact fun handle hmem => Nat.lt_of_lt_of_le (hearlier o hbefore handle hmem) hserial
      · exact hanswered o hsince
    have hnew : ¬ (second.1 = stored.handle? ∧ second.2.log = last.log) :=
      hhandle ▸ hanew.not_reused (List.mem_append_right _ List.mem_cons_self)
    exact ⟨⟨fun hsame => absurd hsame hnew, fun hnot => absurd hnot hin⟩, fun hnot => absurd hnot hin,
      fun _ => hanew⟩

/-- In any history: of two requests for a key of a language with a grammar, with none between them and
no step that takes the entry out, the second is answered from the entry that the first one left and
reports nothing, just when nothing expires or no more than the time to live has passed. Else its text
is compiled anew. So a text that does not compile is reported each time that it is not found, and
nothing else is reported but requests for languages without a grammar. -/
theorem reuse_of_history (env : Environment) (capacity ttl : Nat) (history : List QueryOperation) :
    let start := ofCache (.empty capacity ttl)
    let steps := history.flatMap QueryOperation.steps
    let requests := start.outcomes env steps
    let reports := requests.flatMap RequestOutcome.reports
    let operation := "query_manager.compile_query"
    let log := (start.runQueries env history).log
    (∀ key before between after, Language.hasGrammar key.language = true →
      steps = before ++ .request key :: (between ++ .request key :: after) →
      .request key ∉ between →
      let there := start.runSteps env before
      let first := there.compile env key
      let last := first.2.runSteps env between
      let second := last.compile env key
      let inTime := ttl = 0 ∨ env.clock last.readings - env.clock there.readings ≤ ttl
      first.2.spares env key between = true →
      ∃ stored, last.cache.find? key = some stored ∧ stored.handle? = first.1 ∧
        (second.1 = stored.handle? ∧ second.2.log = last.log ↔ inTime) ∧
        (inTime → second.2.cache.find? key = some (stored.touch (env.clock last.readings))) ∧
        (¬ inTime → last.CompiledAnew env key
          (start.outcomes env (before ++ .request key :: between)))) ∧
    log = FailureLog.empty.recordAll reports ∧
    (reports.countP fun r => r.failure.isRejection && r.origin.operationKey == operation) =
      requests.countP (·.missesRejected env.compiler) ∧
    log.byOperation.count operation = requests.countP (fun o =>
      o.missesRejected env.compiler || !Language.hasGrammar o.key.language) ∧
    ∀ language, Language.hasGrammar language = true →
      log.byLanguage.count language = requests.countP fun o =>
        o.missesRejected env.compiler && o.key.language == language := by
  intro start steps requests reports operation log
  have hstart : start.cache.WellFormed env.compiler (max capacity 1) :=
    QueryCache.wellFormed_empty env.compiler capacity ttl
  have hnone : start.cache.Numbered := fun e he => absurd he List.not_mem_nil
  have hlog : log = FailureLog.empty.recordAll reports := by
    rw [show log = _ from congrArg Services.log (runQueries_eq_runSteps env history start)]
    exact log_runSteps env steps start
  obtain ⟨hrejections, hoperation, hlanguage⟩ := rejections_runSteps hstart steps
  refine ⟨?_, hlog, hrejections, ?_, fun language hgrammar => ?_⟩
  · intro key before between after hgrammar _ hbetween there first last second inTime hspared
    obtain ⟨-, hearlier⟩ := serial_lt_of_mem_outcomes env before hnone
    have httl : there.cache.ttl = ttl := ttl_runSteps env before start
    rw [outcomes_append]
    exact compile_again (wellFormed_runSteps before hstart) httl (numbered_runSteps before hnone)
      hearlier hgrammar hbetween hspared
  · have hcount := (FailureLog.empty.grows_byOperation reports).count_eq operation
    rw [hlog, hcount, hoperation]
    exact Nat.zero_add _
  · have hcount := (FailureLog.empty.grows_byLanguage reports).count_eq language
    rw [hlog, hcount, hlanguage language hgrammar]
    exact Nat.zero_add _

/-- Python's query is used again just in time, and the text that rust rejects just too late. -/
def expiringHistory : List QueryOperation :=
  [.compile ⟨"python", sharedText⟩, .compile ⟨"rust", sharedText⟩, .compile ⟨"cobol", sharedText⟩,
    .validate ⟨"python", sharedText⟩, .compile ⟨"python", sharedText⟩,
    .compile ⟨"rust", sharedText⟩]

def pythonFirst : Option QueryHandle × Services :=
  (ofCache (.empty 2 3)).compile countingEnvironment ⟨"python", sharedText⟩

/-- The services before python's second request. -/
def pythonLast : Services :=
  pythonFirst.2.runSteps countingEnvironment
    [.request ⟨"rust", sharedText⟩, .request ⟨"cobol", sharedText⟩]

/-- The services before rust's second request. -/
def rustLast : Services :=
  ((pythonFirst.2.compile countingEnvironment ⟨"rust", sharedText⟩).2).runSteps countingEnvironment
    [.request ⟨"cobol", sharedText⟩, .request ⟨"python", sharedText⟩,
      .request ⟨"python", sharedText⟩]

/-- Three after the first request python has the same handle; four after, rust is told again that the
text does not compile. The third report is that there is no grammar for cobol. -/
theorem reuse_of_history_expiringHistory :
    (pythonLast.compile countingEnvironment ⟨"python", sharedText⟩).1 = pythonFirst.1 ∧
    rustLast.CompiledAnew countingEnvironment ⟨"rust", sharedText⟩
      ((ofCache (.empty 2 3)).outcomes countingEnvironment
        ((expiringHistory.flatMap QueryOperation.steps).take 5)) ∧
    ((ofCache (.empty 2 3)).runQueries countingEnvironment expiringHistory).log.byOperation.count
      "query_manager.compile_query" = 3 := by
  obtain ⟨hagain, -, -, hreported, -⟩ := reuse_of_history countingEnvironment 2 3 expiringHistory
  refine ⟨?_, ?_, ?_⟩
  · obtain ⟨stored, -, hhandle, hsame, -⟩ := hagain ⟨"python", sharedText⟩ []
      [.request ⟨"rust", sharedText⟩, .request ⟨"cobol", sharedText⟩] _ (by decide) rfl
      (by decide) (by decide +kernel)
    exact ((hsame.2 (Or.inr (by decide +kernel))).1).trans hhandle
  · obtain ⟨stored, -, -, -, -, hanew⟩ := hagain ⟨"rust", sharedText⟩
      [.request ⟨"python", sharedText⟩]
      [.request ⟨"cobol", sharedText⟩, .request ⟨"python", sharedText⟩,
        .request ⟨"python", sharedText⟩] _ (by decide) rfl (by decide) (by decide +kernel)
    exact hanew (by decide +kernel)
  · rw [hreported]
    decide +kernel

end Services

end SourceBlocks
