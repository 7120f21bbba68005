import SourceBlocks.Proofs.Session.Resumes

/-! # Engines in use

Clients work on files, compile queries, and check parsers out and back in, in any order. Whatever
they do, the cache answers as the compiler does, the detector as its tables do, and each parser is
in its place or out on one lease. -/

namespace SourceBlocks

/-- One thing that a client does. -/
inductive Operation where
  | chunkText (file : SourceFile)
  | chunkFile (store : FileStore) (parse : SourceText → Node) (path : String)
  | processBatch (files : List SourceFile)
  | extract (language : String) (file : SourceFile)
  | extractFromRoot (language : String) (file : SourceText) (root : Node)
  | blocksOfCaptures (language : String) (file : SourceText) (set : CaptureSet)
  | compile (key : QueryKey)
  | validate (key : QueryKey)
  | primary (language : String)
  | fallback (language : String)
  | preload (languages : List String)
  | sweep
  | clearQueries
  | acquire (language : String)
  | release (lease : ParserLease)
  | evict (language : String)
  | cleanup
  | shutdown
  | detect (path : String)
  | clearDetector
  | check (store : FileStore) (path : String)
  | report (r : Report)
  | resetLog

/-- A session and the leases that its clients hold. -/
structure Engine where
  session : Session
  leases : List ParserLease

namespace Engine

def opened (env : Environment) : Engine := ⟨.opened env, []⟩

def withServices (e : Engine) (services : Services) : Engine :=
  { e with session := { e.session with services } }

def withSession (e : Engine) (session : Session) : Engine := { e with session }

/-- What one operation leaves. A checkout that is granted adds a lease, and only a lease that is held
can be given back. -/
def step (e : Engine) (env : Environment) : Operation → Engine
  | .chunkText file => e.withSession (e.session.chunkText env file).2
  | .chunkFile store parse path => e.withSession (e.session.chunkFile env store parse path).2
  | .processBatch files => e.withSession (e.session.processBatch env files).2
  | .extract language file => e.withServices (e.session.services.extract env language file).2
  | .extractFromRoot language file root =>
    e.withServices (e.session.services.extractFromRoot env language file root).2
  | .blocksOfCaptures language file set =>
    e.withServices (e.session.services.blocksOfCaptures env language file set).2
  | .compile key => e.withServices (e.session.services.compile env key).2
  | .validate key => e.withServices (e.session.services.validate env key).2
  | .primary language => e.withServices (e.session.services.primary env language).2
  | .fallback language => e.withServices (e.session.services.fallback env language).2
  | .preload languages => e.withServices (e.session.services.preload env languages).2
  | .sweep => e.withServices (e.session.services.sweep env).2
  | .clearQueries =>
    e.withServices { e.session.services with cache := e.session.services.cache.clear }
  | .acquire language =>
    match e.session.services.acquire language with
    | (some lease, services) => { e.withServices services with leases := lease :: e.leases }
    | (none, services) => e.withServices services
  | .release lease =>
    if lease ∈ e.leases then
      { e.withServices (e.session.services.release lease) with leases := e.leases.erase lease }
    else e
  | .evict language => e.withServices (e.session.services.evict language).2
  | .cleanup => e.withServices e.session.services.cleanup.2
  | .shutdown => e.withSession (e.session.shutdown env).2
  | .detect path => e.withSession (e.session.detect path).2
  | .clearDetector => e.withSession { e.session with detector := .empty }
  | .check store path => e.withSession (e.session.check env.settings store path).2
  | .report r => e.withServices (e.session.services.report r)
  | .resetLog => e.withServices { e.session.services with log := .empty }

def run (e : Engine) (env : Environment) (history : List Operation) : Engine :=
  history.foldl (fun e op => e.step env op) e

/-- Cache, pool and detector are sound, and the leases are those of the parsers that are out. -/
structure Good (compiler : QueryCompiler) (e : Engine) : Prop where
  session : e.session.Sound compiler
  leased : e.session.services.pool.Leased e.leases

variable {compiler : QueryCompiler} {env : Environment} {e : Engine}

theorem Good.withSession (h : e.Good compiler) {session : Session}
    (hresumes : e.session.Resumes compiler session) : (e.withSession session).Good compiler :=
  ⟨hresumes.sound, h.leased.congr hresumes.services.pool.out⟩

theorem Good.withServices (h : e.Good compiler) {services : Services}
    (hresumes : e.session.services.Resumes compiler services) :
    (e.withServices services).Good compiler :=
  ⟨⟨hresumes.sound, h.session.detector⟩, h.leased.congr hresumes.pool.out⟩

theorem Good.withCache (h : e.Good compiler) {services : Services}
    (hkeeps : e.session.services.Keeps compiler services) :
    (e.withServices services).Good compiler :=
  h.withServices (hkeeps.resumes h.session.services)

/-- Work that only forgets: the cache is sound, and the slots are as they were. -/
theorem Good.forget (h : e.Good compiler) {services : Services}
    (hsound : services.Sound compiler)
    (hslots : services.pool.slots = e.session.services.pool.slots) :
    (e.withServices services).Good compiler :=
  ⟨⟨hsound, h.session.detector⟩, h.leased.congr (ParserPool.isOut_congr hslots)⟩

theorem Good.acquire (h : e.Good env.compiler) (language : String) :
    (e.step env (.acquire language)).Good env.compiler := by
  rw [step]
  cases hlease : (e.session.services.pool.acquire language).lease with
  | error failure =>
    rw [Services.acquire_of_error hlease]
    exact h.withServices ⟨h.session.services.cache,
      (ParserPool.acquire_error h.session.services.pool hlease).2⟩
  | ok lease =>
    rw [Services.acquire_of_ok hlease]
    exact ⟨⟨h.session.services.checkout language, h.session.detector⟩,
      h.leased.acquire h.session.services.pool hlease⟩

theorem Good.release (h : e.Good env.compiler) (lease : ParserLease) :
    (e.step env (.release lease)).Good env.compiler := by
  rw [step]
  split
  case isTrue hheld =>
    exact ⟨⟨⟨h.session.services.cache, h.session.services.pool.release lease⟩,
      h.session.detector⟩, h.leased.release (List.perm_cons_erase hheld)⟩
  case isFalse => exact h

/-- No operation spoils an engine. -/
theorem Good.step (hvalid : env.settings.invalid? = none) (h : e.Good env.compiler)
    (op : Operation) : (e.step env op).Good env.compiler := by
  have hservices := h.session.services
  cases op with
  | chunkText file => exact h.withSession (Session.resumes_chunkText h.session file)
  | chunkFile store parse path =>
    exact h.withSession (Session.resumes_chunkFile h.session store parse path)
  | processBatch files =>
    exact h.withSession (Session.resumes_processBatch hvalid h.session files)
  | extract language file => exact h.withServices (Services.resumes_extract hservices language file)
  | extractFromRoot language file root =>
    exact h.withCache (Services.keeps_extractFromRoot hservices language file root)
  | blocksOfCaptures language file set =>
    exact h.withCache (Services.keeps_noteSkipped hservices language file set.normalize)
  | compile key => exact h.withCache (Services.keeps_compile hservices key)
  | validate key => exact h.withCache (Services.keeps_validate hservices key)
  | primary language => exact h.withCache (Services.keeps_compileQuery hservices language _)
  | fallback language => exact h.withCache (Services.keeps_compileQuery hservices language _)
  | preload languages => exact h.withCache (Services.keeps_preload languages hservices)
  | sweep => exact h.withCache (Services.keeps_sweep hservices)
  | clearQueries => exact h.withCache ⟨hservices.cache.clear, rfl⟩
  | acquire language => exact h.acquire language
  | release lease => exact h.release lease
  | evict language => exact h.forget ⟨hservices.cache, hservices.pool.evict language⟩ rfl
  | cleanup => exact h.forget ⟨hservices.cache, .cleanup _⟩ rfl
  | shutdown => exact h.forget ⟨hservices.cache.sweep _, .cleanup _⟩ rfl
  | detect path => exact h.withSession (Session.resumes_detect h.session path)
  | clearDetector => exact h.withSession ⟨.refl hservices, Detector.sound_empty⟩
  | check store path => exact h.withSession (Session.resumes_check h.session _ store path)
  | report r => exact h.withCache (Services.keeps_report hservices r)
  | resetLog => exact h.withCache ⟨hservices.cache, rfl⟩

theorem good_opened (env : Environment) : (opened env).Good env.compiler := by
  have hfresh := Services.sound_ofSettings env.compiler env.settings
  have hloaded := Services.keeps_preload env.settings.preload hfresh
  refine ⟨⟨hloaded.sound hfresh, Detector.sound_empty⟩, ?_⟩
  exact ParserPool.leased_empty.congr fun slot => congrArg (·.isOut slot) hloaded.pool

theorem Good.run (hvalid : env.settings.invalid? = none) (history : List Operation) :
    ∀ {e : Engine}, e.Good env.compiler → (e.run env history).Good env.compiler := by
  induction history with
  | nil => exact fun h => h
  | cons op rest ih => exact fun h => ih (h.step hvalid op)

theorem good_run_opened (hvalid : env.settings.invalid? = none) (history : List Operation) :
    ((opened env).run env history).Good env.compiler := (good_opened env).run hvalid history

end Engine

theorem Session.start_eq_ok {env : Environment} (hvalid : env.settings.invalid? = none) :
    start env = .ok (opened env) := by
  rw [start, hvalid]

end SourceBlocks
