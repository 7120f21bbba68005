import SourceBlocks.Extraction.Basic
import SourceBlocks.File.Check

/-! # Batches of files

Files are grouped by language, and one parser is checked out for a whole group. A group whose parser
is not to be had fails at once. Large groups go first where groups may run beside each other. -/

namespace SourceBlocks

/-- How a group of files is worked on. -/
structure GroupPlan where
  maxBlocks : Nat
  timeoutMultiplier : Float
  sharesParser : Bool
  parallel : Bool
  deriving Repr

def largeGroup : Nat := 10

/-- The plan for a group of a language. Large groups hold their parser longer. -/
def Settings.groupPlan (s : Settings) (language : String) (files : Nat) : GroupPlan :=
  let tuning := s.tuning language
  let large := decide (largeGroup < files)
  { maxBlocks := tuning.maxBlocks
    timeoutMultiplier := if large then 1.2 else tuning.timeoutMultiplier
    sharesParser := true
    parallel := large }

structure LanguageGroup where
  language : String
  files : List SourceFile

/-- Puts a file to its group; groups are in increasing order of their languages. -/
def addToGroup (language : String) (file : SourceFile) : List LanguageGroup → List LanguageGroup
  | [] => [⟨language, [file]⟩]
  | g :: rest =>
    if g.language = language then ⟨language, g.files ++ [file]⟩ :: rest
    else if language < g.language then ⟨language, [file]⟩ :: g :: rest
    else g :: addToGroup language file rest

/-- Blocks by path, and how many files were worked on or failed. A batch as a whole succeeds, whatever
becomes of its files. -/
structure BatchOutcome where
  succeeded : Bool
  results : List (String × List Block)
  processed : Nat
  failed : Nat
  deriving DecidableEq, Repr

namespace BatchOutcome

def empty : BatchOutcome := ⟨true, [], 0, 0⟩

/-- The blocks of a path in place of earlier ones. -/
def put (path : String) (blocks : List Block) : List (String × List Block) →
    List (String × List Block)
  | [] => [(path, blocks)]
  | (p, bs) :: rest => if p = path then (path, blocks) :: rest else (p, bs) :: put path blocks rest

def add (o : BatchOutcome) (path : String) (blocks : Option (List Block)) : BatchOutcome :=
  { o with
    results := put path (blocks.getD []) o.results
    processed := o.processed + (if blocks.isSome then 1 else 0)
    failed := o.failed + (if blocks.isSome then 0 else 1) }

end BatchOutcome

namespace Session

def groupFiles (st : Session) : List SourceFile → List LanguageGroup →
    List LanguageGroup × Session
  | [], groups => (groups, st)
  | file :: rest, groups =>
    let (language, st) := st.detect file.path
    st.groupFiles rest (addToGroup (language.getD unknownLanguage) file groups)

end Session

namespace Services

/-- The blocks of a file under a plan, or none if it failed. -/
def keepBlocks (plan : GroupPlan) (outcome : Extraction) : Option (List Block) :=
  if outcome.succeeded then some (outcome.blocks.take plan.maxBlocks) else none

def processFiles (plan : GroupPlan)
    (extractFile : Services → SourceFile → Extraction × Services) (s : Services) :
    List SourceFile → BatchOutcome → BatchOutcome × Services
  | [], outcome => (outcome, s)
  | file :: rest, outcome =>
    let (extraction, s) := extractFile s file
    processFiles plan extractFile s rest (outcome.add file.path (keepBlocks plan extraction))

/-- Works on a group with one parser, or with none if its language needs none. -/
def processGroup (s : Services) (env : Environment) (group : LanguageGroup)
    (outcome : BatchOutcome) : BatchOutcome × Services :=
  let plan := env.settings.groupPlan group.language group.files.length
  if plan.sharesParser && (env.settings.tuning group.language).hasStructuralSupport then
    match s.acquire group.language with
    | (none, s) => (group.files.foldl (fun o file => o.add file.path none) outcome, s)
    | (some lease, s) =>
      let (outcome, s) := s.processFiles plan (fun s file => s.extractParsed env group.language file)
        group.files outcome
      (outcome, s.release lease)
  else s.processFiles plan (fun s file => s.extract env group.language file) group.files outcome

def processGroups (s : Services) (env : Environment) : List LanguageGroup → BatchOutcome →
    BatchOutcome × Services
  | [], outcome => (outcome, s)
  | group :: rest, outcome =>
    let (outcome, s) := s.processGroup env group outcome
    s.processGroups env rest outcome

end Services

/-- The group may run beside others. -/
def Settings.runsBeside (s : Settings) (group : LanguageGroup) : Bool :=
  s.parallelGroups && (s.groupPlan group.language group.files.length).parallel

namespace Session

def processBatch (st : Session) (env : Environment) (files : List SourceFile) :
    BatchOutcome × Session :=
  let (groups, st) := st.groupFiles files []
  let (beside, inline) := groups.partition env.settings.runsBeside
  let (outcome, services) := st.services.processGroups env (beside ++ inline) .empty
  (outcome, { st with services })

end Session

end SourceBlocks
