import SourceBlocks.Language.Catalogue

/-! # Settings

All settings with their defaults, which of them are valid, and the tuning of one language that they
amount to. -/

namespace SourceBlocks

inductive ChunkerKind where
  | lines
  | tokens
  | structural
  deriving DecidableEq, Repr

/-- Settings for one language; what is absent stays as it is for all languages. -/
structure LanguageOverride where
  maxFileBytes : Option Nat := none
  maxBlocks : Option Nat := none
  timeoutMultiplier : Option Float := none
  deriving Repr

def defaultSkipPatterns : List String :=
  ["*.min.js", "*.bundle.js", "*.min.css", "package-lock.json", "yarn.lock", "*.lock", "target/",
    "build/", "dist/", "__pycache__/", "node_modules/", "*.log", "*.tmp", "*.temp"]

structure Settings where
  chunker : ChunkerKind := .structural
  structuralEnabled : Bool := true
  skipTests : Bool := true
  skipExamples : Bool := true
  skipPatterns : List String := defaultSkipPatterns
  maxFileBytes : Nat := 512 * 1024
  maxBlocks : Nat := 100
  maxFunctions : Nat := 50
  maxClasses : Nat := 20
  maxImpls : Nat := 30
  minBlockChars : Nat := 1
  timeoutSeconds : Float := 60.0
  debugLogging : Bool := false
  cacheCapacity : Nat := 100
  cacheTtlSeconds : Nat := 300
  preload : List String := ["python", "javascript", "typescript", "rust", "go"]
  fallbackToLines : Bool := true
  wholeFileFallback : Bool := true
  parallelGroups : Bool := true
  lineWindowChars : Nat := 1000
  tokenWindow : Nat := 1000
  tokenOverlap : Nat := 200
  overrides : List (String × LanguageOverride) := []
  deriving Repr

/-- What is wrong with settings or with a variable that overrides one. -/
inductive SettingsError where
  | noBlocks
  | noFileBytes
  | noCache
  | timeoutNotPositive
  | overlapTooLarge
  | timeoutNotANumber (text : String)
  | unknownChunker (name : String)
  deriving DecidableEq, Repr

def SettingsError.message : SettingsError → String
  | noBlocks => "max_blocks_per_file must be > 0"
  | noFileBytes => "max_file_size_bytes must be > 0"
  | noCache => "query_cache_size must be > 0"
  | timeoutNotPositive => "timeout_seconds must be positive"
  | overlapTooLarge => "token_chunk_overlap must be smaller than token_chunk_size"
  | timeoutNotANumber text => s!"CODE_INDEX_EMBED_TIMEOUT is not a number: {text}"
  | unknownChunker name => s!"unknown chunking strategy '{name}'"

/-- A number that can be a duration or a factor of one. -/
def isPositiveFinite (x : Float) : Bool := x.isFinite && decide (0 < x)

structure LanguageTuning where
  language : String
  maxFileBytes : Nat
  maxBlocks : Nat
  timeoutMultiplier : Float
  hasStructuralSupport : Bool
  deriving Repr

namespace Settings

/-- The first thing that is wrong with the settings. -/
def invalid? (s : Settings) : Option SettingsError :=
  if s.maxBlocks = 0 then some .noBlocks
  else if s.maxFileBytes = 0 then some .noFileBytes
  else if s.cacheCapacity = 0 then some .noCache
  else if !isPositiveFinite s.timeoutSeconds then some .timeoutNotPositive
  else if s.tokenWindow ≤ s.tokenOverlap then some .overlapTooLarge
  else none

/-- The tuning of a language before its override. Rust sources get fewer blocks and wait less for a
parser. -/
def baseTuning (s : Settings) (language : String) : LanguageTuning :=
  let tuned := language == Language.rust.key
  { language
    maxFileBytes := s.maxFileBytes
    maxBlocks := if tuned then min s.maxBlocks 30 else s.maxBlocks
    timeoutMultiplier := if tuned then 0.8 else 1.0
    hasStructuralSupport := Catalogue.hasStructuralSupport language }

/-- The tuning of a language. An override of no blocks counts as one block, and a multiplier that is
not positive is ignored. -/
def tuning (s : Settings) (language : String) : LanguageTuning :=
  let base := s.baseTuning language
  match s.overrides.lookup language with
  | none => base
  | some o =>
    { base with
      maxFileBytes := o.maxFileBytes.getD base.maxFileBytes
      maxBlocks := (o.maxBlocks.map (max · 1)).getD base.maxBlocks
      timeoutMultiplier := (o.timeoutMultiplier.filter isPositiveFinite).getD
        base.timeoutMultiplier }

end Settings

end SourceBlocks
