import SourceBlocks.Engine.Batch

/-! # The engine

A session over valid settings with the queries of common languages compiled in advance. It cuts texts
and files into blocks, one by one or in batches. -/

namespace SourceBlocks

structure Diagnostics where
  cache : CacheInfo
  pool : PoolUsage
  failures : FailureLog
  detector : DetectorInfo
  deriving Repr

namespace Session

/-- A new session that has the queries of common languages. -/
def opened (env : Environment) : Session :=
  let st := ofSettings env.settings
  let (_, services) := st.services.preload env env.settings.preload
  { st with services }

def start (env : Environment) : Except SettingsError Session :=
  match env.settings.invalid? with
  | some e => .error e
  | none => .ok (opened env)

/-- The blocks of a file whose text is at hand, unless the text is over the limit of its path. -/
def chunkText (st : Session) (env : Environment) (file : SourceFile) : Extraction × Session :=
  match st.admitsSize env.settings file.path file.text.utf8ByteSize with
  | (false, st) => (.skipped .fileTooLarge, st)
  | (true, st) =>
    let (language, st) := st.detect file.path
    let (outcome, services) := st.services.extract env (language.getD unknownLanguage) file
    (outcome, { st with services })

/-- The blocks of a stored file, once it is checked and read. -/
def chunkFile (st : Session) (env : Environment) (store : FileStore) (parse : SourceText → Node)
    (path : String) : Except Failure Extraction × Session :=
  match st.check env.settings store path with
  | (some failure, st) => (.error failure, st)
  | (none, st) =>
    match SourceText.ofStore store path with
    | .error failure => (.error failure, st)
    | .ok source =>
      let (outcome, st) := st.chunkText env { source with tree := parse source }
      (.ok outcome, st)

def diagnostics (st : Session) : Diagnostics where
  cache := st.services.cache.info
  pool := st.services.pool.usage
  failures := st.services.log
  detector := st.detector.info

/-- Drops expired queries and forgets all parsers; the session stays usable. -/
def shutdown (st : Session) (env : Environment) : PoolCleanup × Session :=
  let (_, services) := st.services.sweep env
  let (stats, services) := services.cleanup
  (stats, { st with services })

end Session

end SourceBlocks
