import SourceBlocks.Failure.Log
import SourceBlocks.Parser.Pool
import SourceBlocks.Query.Cache
import SourceBlocks.Settings.Basic

/-! # Shared services

The query cache, the parser pool and the failure log that all work on files shares. Each operation
takes the services and gives them back changed; what fails in one is recorded in the log. -/

namespace SourceBlocks

/-- What does not change while the services are used: the settings, the query compiler and the clock,
which tells the time of each reading. -/
structure Environment where
  settings : Settings
  compiler : QueryCompiler
  clock : Nat → Nat

/-- The state of all services and the number of clock readings taken. -/
structure Services where
  log : FailureLog
  cache : QueryCache
  pool : ParserPool
  readings : Nat

namespace Services

def ofCache (cache : QueryCache) : Services := ⟨.empty, cache, .empty, 0⟩

def ofSettings (s : Settings) : Services :=
  ofCache (.empty s.cacheCapacity (s.cacheTtlSeconds * 1000000000))

def report (s : Services) (r : Report) : Services := { s with log := s.log.record r }

def reportIfAny (s : Services) (failure : Option Failure) (origin : Origin) : Services :=
  match failure with
  | some f => s.report (f.reportAt origin)
  | none => s

def compileOrigin (language : String) : Origin :=
  { component := "query_manager", operation := "compile_query", language := some language }

def checkoutOrigin (language : String) : Origin :=
  { component := "resource_manager", operation := "acquire_resources", language := some language }

def compile (s : Services) (env : Environment) (key : QueryKey) : Option QueryHandle × Services :=
  let answer := s.cache.request env.compiler (env.clock s.readings) key
  (answer.handle,
    { s with cache := answer.cache, readings := s.readings + 1 }.reportIfAny answer.failure
      (compileOrigin key.language))

def compileQuery (s : Services) (env : Environment) (language : String) (query : Option Query) :
    Option QueryHandle × Services :=
  match query with
  | none => (none, s)
  | some q => s.compile env ⟨language, q.text⟩

def primary (s : Services) (env : Environment) (language : String) :
    Option QueryHandle × Services :=
  s.compileQuery env language (Catalogue.primaryOf? language)

def fallback (s : Services) (env : Environment) (language : String) :
    Option QueryHandle × Services :=
  s.compileQuery env language (Catalogue.fallbackOf? language)

/-- The text compiles and captures something. -/
def validate (s : Services) (env : Environment) (key : QueryKey) : Bool × Services :=
  let (handle, s) := s.compile env key
  (handle.any fun h => !h.program.captures.isEmpty, s)

/-- Requests the primary queries of languages and counts those that compile. -/
def preload (s : Services) (env : Environment) : List String → Nat × Services
  | [] => (0, s)
  | language :: rest =>
    let (handle, s) := s.primary env language
    let (count, s) := s.preload env rest
    (count + (if handle.isSome then 1 else 0), s)

/-- Drops expired queries and counts them. -/
def sweep (s : Services) (env : Environment) : Nat × Services :=
  let (count, cache) := s.cache.sweep (env.clock s.readings)
  (count, { s with cache, readings := s.readings + 1 })

/-- Checks out the parser of a language. -/
def acquire (s : Services) (language : String) : Option ParserLease × Services :=
  let answer := s.pool.acquire language
  let s : Services := { s with pool := answer.pool }
  match answer.lease with
  | .ok lease => (some lease, s)
  | .error failure => (none, s.report (failure.reportAt (checkoutOrigin language)))

def release (s : Services) (lease : ParserLease) : Services :=
  { s with pool := s.pool.release lease }

def evict (s : Services) (language : String) : Bool × Services :=
  let (found, pool) := s.pool.evict language
  (found, { s with pool })

def cleanup (s : Services) : PoolCleanup × Services :=
  let (stats, pool) := s.pool.cleanup
  (stats, { s with pool })

end Services

end SourceBlocks
