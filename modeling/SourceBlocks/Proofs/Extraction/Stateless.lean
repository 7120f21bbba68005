import SourceBlocks.Proofs.Extraction.Chosen
import SourceBlocks.Proofs.Extraction.Found
import SourceBlocks.Proofs.Parser.Slots

/-! # Extraction without a past

What a file gives does not depend on what the services did before, save for one thing: whether the
parser of its language is out. Any two sound states and any two clocks give the same outcome, and
an extraction leaves the parsers where they were. -/

namespace SourceBlocks

/-- The environment at another clock, with groups that run beside each other or not. -/
def Environment.rerun (env : Environment) (parallel : Bool) (clock : Nat → Nat) : Environment :=
  ⟨{ env.settings with parallelGroups := parallel }, env.compiler, clock⟩

namespace Services

/-- The cache answers as the compiler does, and the pool knows only slots that exist. -/
structure Sound (compiler : QueryCompiler) (s : Services) : Prop where
  cache : s.cache.Sound compiler
  pool : s.pool.InRange

/-- What work without a checkout leaves: a sound cache, and the pool as it is. -/
structure Keeps (compiler : QueryCompiler) (s t : Services) : Prop where
  cache : t.cache.Sound compiler
  pool : t.pool = s.pool

/-- What work leaves that gives back its checkouts: a sound cache, and the parsers where they
were. -/
structure Resumes (compiler : QueryCompiler) (s t : Services) : Prop where
  cache : t.cache.Sound compiler
  pool : s.pool.Resumes t.pool

theorem sound_ofSettings (compiler : QueryCompiler) (settings : Settings) :
    (ofSettings settings).Sound compiler :=
  ⟨QueryCache.sound_empty compiler _ _, fun _ h => absurd h List.not_mem_nil⟩

variable {compiler : QueryCompiler} {s t u : Services}

theorem Keeps.sound (h : s.Keeps compiler t) (hs : s.Sound compiler) : t.Sound compiler :=
  ⟨h.cache, h.pool ▸ hs.pool⟩

theorem Keeps.refl (h : s.Sound compiler) : s.Keeps compiler s := ⟨h.cache, rfl⟩

theorem Keeps.trans (h : s.Keeps compiler t) (h' : t.Keeps compiler u) : s.Keeps compiler u :=
  ⟨h'.cache, h'.pool.trans h.pool⟩

theorem Resumes.sound (h : s.Resumes compiler t) : t.Sound compiler := ⟨h.cache, h.pool.inRange⟩

theorem Resumes.refl (h : s.Sound compiler) : s.Resumes compiler s := ⟨h.cache, .refl h.pool⟩

theorem Resumes.trans (h : s.Resumes compiler t) (h' : t.Resumes compiler u) :
    s.Resumes compiler u := ⟨h'.cache, h.pool.trans h'.pool⟩

theorem Keeps.resumes (h : s.Keeps compiler t) (hs : s.Sound compiler) :
    s.Resumes compiler t := by
  refine ⟨h.cache, ?_⟩
  rw [h.pool]
  exact .refl hs.pool

theorem keeps_report (h : s.Sound compiler) (r : Report) : s.Keeps compiler (s.report r) :=
  ⟨h.cache, rfl⟩

theorem keeps_reportIfAny (h : s.Sound compiler) (failure : Option Failure) (origin : Origin) :
    s.Keeps compiler (s.reportIfAny failure origin) := by
  cases failure with
  | none => exact .refl h
  | some f => exact keeps_report h _

theorem keeps_noteSkipped (h : s.Sound compiler) (language : String) (file : SourceText)
    (captures : NormalCaptures) :
    s.Keeps compiler (s.noteSkipped language file captures) := by
  rw [noteSkipped]
  split
  · exact .refl h
  · exact keeps_report h _

variable {env : Environment} (parallel : Bool) (clock : Nat → Nat)

theorem Sound.rerun (h : s.Sound env.compiler) :
    s.Sound (env.rerun parallel clock).compiler := h

theorem compile_program (h : s.Sound env.compiler) (key : QueryKey) :
    (s.compile env key).1.map QueryHandle.program = env.compiler.program? key :=
  (h.cache.request _ key).1.program_eq

theorem keeps_compile (h : s.Sound env.compiler) (key : QueryKey) :
    s.Keeps env.compiler (s.compile env key).2 := by
  let answer := s.cache.request env.compiler (env.clock s.readings) key
  have hanswer : s.Keeps env.compiler
      { s with cache := answer.cache, readings := s.readings + 1 } :=
    ⟨(h.cache.request _ key).2, rfl⟩
  exact hanswer.trans (keeps_reportIfAny (hanswer.sound h) answer.failure _)

theorem compileQuery_program (h : s.Sound env.compiler) (language : String)
    (query : Option Query) :
    (s.compileQuery env language query).1.map QueryHandle.program =
      env.program? language query := by
  cases query with
  | none => rfl
  | some q => exact compile_program h ⟨language, q.text⟩

theorem keeps_compileQuery (h : s.Sound env.compiler) (language : String)
    (query : Option Query) :
    s.Keeps env.compiler (s.compileQuery env language query).2 := by
  cases query with
  | none => exact .refl h
  | some q => exact keeps_compile h ⟨language, q.text⟩

theorem keeps_validate (h : s.Sound env.compiler) (key : QueryKey) :
    s.Keeps env.compiler (s.validate env key).2 := keeps_compile h key

theorem keeps_preload (languages : List String) :
    ∀ {s : Services}, s.Sound env.compiler →
      s.Keeps env.compiler (s.preload env languages).2 := by
  induction languages with
  | nil => exact fun h => .refl h
  | cons language rest ih =>
    intro s h
    have hfirst := keeps_compileQuery h language (Catalogue.primaryOf? language)
    exact hfirst.trans (ih (hfirst.sound h))

theorem keeps_sweep (h : s.Sound env.compiler) : s.Keeps env.compiler (s.sweep env).2 :=
  ⟨h.cache.sweep _, rfl⟩

theorem keeps_runQuery? {answer : Option QueryHandle × Services}
    (h : answer.2.Sound env.compiler) (language : String) (file : SourceText) (root : Node) :
    answer.2.Keeps env.compiler (runQuery? env language file root answer).2 := by
  obtain ⟨handle | handle, s⟩ := answer
  · exact .refl h
  · exact keeps_noteSkipped h language file _

/-- What a strategy gives in a sound state is what it finds. -/
theorem attempt_eq_finds (h : s.Sound env.compiler) (language : String) (file : SourceText)
    (root : Node) (strategy : Strategy) :
    (s.attempt env language file root strategy).1 = env.finds language file root strategy := by
  cases strategy with
  | primaryQuery => exact runQuery?_eq_queryFinds (compileQuery_program h language _)
  | fallbackQuery => exact runQuery?_eq_queryFinds (compileQuery_program h language _)
  | structural => rfl
  | wholeFile => rfl

/-- What a strategy finds is the same at another clock. -/
theorem finds_rerun (language : String) (file : SourceText) (root : Node) (strategy : Strategy) :
    (env.rerun parallel clock).finds language file root strategy =
      env.finds language file root strategy := by
  cases strategy <;> rfl

theorem attempt_eq (hs : s.Sound env.compiler) (ht : t.Sound env.compiler)
    (language : String) (file : SourceText) (root : Node) (strategy : Strategy) :
    (s.attempt env language file root strategy).1 =
      (t.attempt (env.rerun parallel clock) language file root strategy).1 := by
  rw [attempt_eq_finds hs, attempt_eq_finds (ht.rerun parallel clock), finds_rerun]

theorem keeps_attempt (h : s.Sound env.compiler) (language : String) (file : SourceText)
    (root : Node) (strategy : Strategy) :
    s.Keeps env.compiler (s.attempt env language file root strategy).2 := by
  cases strategy with
  | primaryQuery =>
    have hquery := keeps_compileQuery h language (Catalogue.primaryOf? language)
    exact hquery.trans (keeps_runQuery? (hquery.sound h) language file root)
  | fallbackQuery =>
    have hquery := keeps_compileQuery h language (Catalogue.fallbackOf? language)
    exact hquery.trans (keeps_runQuery? (hquery.sound h) language file root)
  | structural => exact .refl h
  | wholeFile => exact .refl h

/-- The strategies of a run see different states of the cache, yet find the same. -/
theorem tryInOrder_eq (language : String) (file : SourceText) (root : Node)
    (strategies : List Strategy) :
    ∀ {s t : Services} (captures skipped : Nat), s.Sound env.compiler → t.Sound env.compiler →
      (tryInOrder env language file root strategies captures skipped s).1 =
        (tryInOrder (env.rerun parallel clock) language file root strategies captures skipped
          t).1 := by
  induction strategies with
  | nil => intro s t captures skipped _ _; rfl
  | cons strategy rest ih =>
    intro s t captures skipped hs ht
    have hsame := attempt_eq parallel clock hs ht language file root strategy
    have hs' := keeps_attempt hs language file root strategy
    have ht' := keeps_attempt (ht.rerun parallel clock) language file root strategy
    rw [tryInOrder, tryInOrder]
    dsimp only
    rw [← hsame]
    split
    · exact ih _ _ (hs'.sound hs) (ht'.sound ht)
    · rfl

theorem keeps_tryInOrder (language : String) (file : SourceText) (root : Node)
    (strategies : List Strategy) :
    ∀ {s : Services} (captures skipped : Nat), s.Sound env.compiler →
      s.Keeps env.compiler
        (tryInOrder env language file root strategies captures skipped s).2 := by
  induction strategies with
  | nil => exact fun _ _ h => .refl h
  | cons strategy rest ih =>
    intro s captures skipped h
    have hfirst := keeps_attempt h language file root strategy
    rw [tryInOrder]
    dsimp only
    split
    · exact hfirst.trans (ih _ _ (hfirst.sound h))
    · exact hfirst

theorem extractFromRoot_eq (hs : s.Sound env.compiler) (ht : t.Sound env.compiler)
    (language : String) (file : SourceText) (root : Node) :
    (s.extractFromRoot env language file root).1 =
      (t.extractFromRoot (env.rerun parallel clock) language file root).1 := by
  rw [extractFromRoot, extractFromRoot]
  rcases s.precheck_cases language file with ⟨hb, h⟩ | ⟨hb, hn, h⟩ | ⟨hb, hn, h⟩
  · simp [precheck, hb]
  · simp [precheck, hb, hn]
  · have h' : t.precheck language file = (none, t) := by simp [precheck, hb, hn]
    rw [h, h']
    exact congrArg (Extraction.extracted language)
      (tryInOrder_eq parallel clock language file root Strategy.order 0 0 hs ht)

theorem keeps_extractFromRoot (h : s.Sound env.compiler) (language : String)
    (file : SourceText) (root : Node) :
    s.Keeps env.compiler (s.extractFromRoot env language file root).2 := by
  rw [extractFromRoot]
  rcases s.precheck_cases language file with ⟨-, hp⟩ | ⟨-, -, hp⟩ | ⟨-, -, hp⟩
  · rw [hp]
    exact .refl h
  · rw [hp]
    exact keeps_report h _
  · rw [hp]
    exact keeps_tryInOrder language file root Strategy.order 0 0 h

/-- The check made before the tree is asked for comes out the same when it is made again. -/
theorem extractParsed_eq_extractFromRoot (s : Services) (env : Environment) (language : String)
    (file : SourceFile) :
    s.extractParsed env language file =
      s.extractFromRoot env language file.toSourceText file.tree := by
  rw [extractParsed]
  rcases s.precheck_cases language file.toSourceText with ⟨-, hp⟩ | ⟨-, -, hp⟩ | ⟨-, -, hp⟩
  · rw [extractFromRoot, hp]
  · rw [extractFromRoot, hp]
  · rw [hp]

def checkout (s : Services) (language : String) : Services :=
  { s with pool := (s.pool.acquire language).pool }

theorem Sound.checkout (h : s.Sound compiler) (language : String) :
    (s.checkout language).Sound compiler := ⟨h.cache, h.pool.acquire language⟩

theorem acquire_of_ok {language : String} {lease : ParserLease}
    (h : (s.pool.acquire language).lease = .ok lease) :
    s.acquire language = (some lease, s.checkout language) := by
  simp only [acquire, h]
  rfl

theorem acquire_of_error {language : String} {failure : Failure}
    (h : (s.pool.acquire language).lease = .error failure) :
    s.acquire language =
      (none, (s.checkout language).report (failure.reportAt (checkoutOrigin language))) := by
  simp only [acquire, h]
  rfl

/-- A file whose parser is out fails if it needs one; any other gives what its tree gives. -/
theorem extract_eq_extractFromRoot (h : s.Sound env.compiler) (language : String)
    (file : SourceFile) :
    (s.extract env language file).1 =
      if Text.isBlankText file.text = false ∧ Language.hasGrammar language = true ∧
          s.pool.isHeld language = true then
        .failed s!"no parser available for {language}"
      else (s.extractFromRoot env language file.toSourceText file.tree).1 := by
  rw [extract]
  rcases s.precheck_cases language file.toSourceText with ⟨hb, hp⟩ | ⟨hb, hn, hp⟩ | ⟨hb, hn, hp⟩
  · rw [extractFromRoot, hp, hb]
    rfl
  · rw [Catalogue.hasStructuralSupport_eq] at hn
    rw [extractFromRoot, hp, hn]
    simp
  · rw [Catalogue.hasStructuralSupport_eq] at hn
    rw [hp]
    cases hlease : (s.pool.acquire language).lease with
    | error failure =>
      have hheld : s.pool.isHeld language = true :=
        (ParserPool.acquire_error h.pool hlease).1.resolve_right (by simp [hn])
      simp only [acquire_of_error hlease]
      rw [if_pos ⟨hb, hn, hheld⟩]
    | ok lease =>
      have hheld : s.pool.isHeld language = false := (ParserPool.acquire_ok h.pool hlease).1
      simp only [acquire_of_ok hlease, extractParsed_eq_extractFromRoot]
      rw [if_neg (by simp [hheld])]
      exact extractFromRoot_eq env.settings.parallelGroups env.clock (h.checkout language) h
        language file.toSourceText file.tree

theorem extract_eq (hs : s.Sound env.compiler) (ht : t.Sound env.compiler)
    {language : String} (hheld : s.pool.isHeld language = t.pool.isHeld language)
    (file : SourceFile) :
    (s.extract env language file).1 = (t.extract (env.rerun parallel clock) language file).1 := by
  rw [extract_eq_extractFromRoot hs,
    extract_eq_extractFromRoot (ht.rerun parallel clock), hheld,
    extractFromRoot_eq parallel clock hs ht]

/-- Work between a checkout and its return leaves the parsers where they were. -/
theorem resumes_release (h : s.Sound compiler) {language : String} {lease : ParserLease}
    (hlease : (s.pool.acquire language).lease = .ok lease)
    (hwork : (s.checkout language).Keeps compiler t) :
    s.Resumes compiler (t.release lease) := by
  refine ⟨hwork.cache, ?_⟩
  rw [release, hwork.pool]
  exact ParserPool.resumes_acquire_release h.pool hlease

theorem resumes_extract (h : s.Sound env.compiler) (language : String) (file : SourceFile) :
    s.Resumes env.compiler (s.extract env language file).2 := by
  rw [extract]
  rcases s.precheck_cases language file.toSourceText with ⟨-, hp⟩ | ⟨-, -, hp⟩ | ⟨-, -, hp⟩
  · rw [hp]
    exact .refl h
  · rw [hp]
    exact (keeps_report h _).resumes h
  · rw [hp]
    cases hlease : (s.pool.acquire language).lease with
    | error failure =>
      simp only [acquire_of_error hlease]
      exact ⟨h.cache, (ParserPool.acquire_error h.pool hlease).2⟩
    | ok lease =>
      simp only [acquire_of_ok hlease, extractParsed_eq_extractFromRoot]
      exact resumes_release h hlease
        (keeps_extractFromRoot (h.checkout language) language file.toSourceText file.tree)

end Services

end SourceBlocks
