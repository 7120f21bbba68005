import SourceBlocks.Block.Bounding
import SourceBlocks.Block.Build
import SourceBlocks.Capture.Structural
import SourceBlocks.Extraction.Services

/-! # Extraction of blocks

Four strategies are tried on a tree in order, and the blocks of the first that gives any are kept
within their limits. Blank texts and languages without structural support give no blocks, and every
failure is a result. -/

namespace SourceBlocks

inductive Strategy where
  | primaryQuery
  | fallbackQuery
  | structural
  | wholeFile
  deriving DecidableEq, Repr

namespace Strategy

def key : Strategy → String
  | primaryQuery => "primary_query"
  | fallbackQuery => "fallback_query"
  | structural => "structural"
  | wholeFile => "whole_file"

def order : List Strategy := [primaryQuery, fallbackQuery, structural, wholeFile]

end Strategy

inductive SkipReason where
  | emptyText
  | unsupportedLanguage
  | fileTooLarge
  deriving DecidableEq, Repr

def SkipReason.key : SkipReason → String
  | emptyText => "empty_text"
  | unsupportedLanguage => "unsupported_language"
  | fileTooLarge => "file_too_large"

/-- Blocks of a tree with the strategy that found them, and the captures of all strategies tried. -/
structure Findings where
  strategy : Option Strategy
  blocks : List Block
  captures : Nat
  skipped : Nat
  deriving DecidableEq, Repr

/-- The outcome for one file. -/
inductive Extraction where
  | skipped (reason : SkipReason)
  | failed (message : String)
  | extracted (language : String) (findings : Findings)
  deriving DecidableEq, Repr

namespace Extraction

def blocks : Extraction → List Block
  | extracted _ f => f.blocks
  | _ => []

def succeeded : Extraction → Bool
  | failed _ => false
  | _ => true

def error? : Extraction → Option String
  | failed message => some message
  | _ => none

def metadata : Extraction → List (String × String)
  | skipped reason => [("skipped", reason.key)]
  | failed _ => []
  | extracted language f =>
    [("language_key", language), ("strategy", (f.strategy.map Strategy.key).getD "none"),
      ("blocks_found", toString f.blocks.length), ("total_captures", toString f.captures),
      ("skipped_captures", toString f.skipped)]

end Extraction

/-- What one strategy gave: blocks, and how many captures it had and passed over. -/
structure Attempt where
  blocks : List Block
  captures : Nat
  skipped : Nat

def Attempt.none : Attempt := ⟨[], 0, 0⟩

namespace Services

def extractionOrigin (operation language : String) (file : SourceText) : Origin :=
  { component := "block_extractor", operation, language := some language, path := some file.path }

/-- The outcome of a file that needs no tree: a blank text, or a language without structural support,
which is reported. -/
def precheck (s : Services) (language : String) (file : SourceText) :
    Option Extraction × Services :=
  if Text.isBlankText file.text then (some (.skipped .emptyText), s)
  else if Catalogue.hasStructuralSupport language then (none, s)
  else
    (some (.skipped .unsupportedLanguage),
      s.report ((Failure.unsupportedLanguage language).reportAt
        (extractionOrigin "extract_blocks" language file)))

/-- Reports records that had no body. -/
def noteSkipped (s : Services) (language : String) (file : SourceText) (captures : NormalCaptures) :
    Services :=
  if captures.skipped = 0 then s
  else s.report {
    failure := .unusableCaptures
      s!"{captures.skipped} of {captures.total} capture records had no block capture"
    origin := extractionOrigin "normalize_captures" language file
    severity := .low }

def runQuery (s : Services) (env : Environment) (language : String) (file : SourceText)
    (root : Node) (handle : QueryHandle) : Attempt × Services :=
  let captures := (CaptureSet.ofMatches (matchesIn handle.program.patterns root)).normalize
  (⟨captureBlocks env.settings language file captures.captures, captures.total, captures.skipped⟩,
    s.noteSkipped language file captures)

def runQuery? (env : Environment) (language : String) (file : SourceText) (root : Node) :
    Option QueryHandle × Services → Attempt × Services
  | (some handle, s) => s.runQuery env language file root handle
  | (none, s) => (.none, s)

def attempt (s : Services) (env : Environment) (language : String) (file : SourceText)
    (root : Node) : Strategy → Attempt × Services
  | .primaryQuery => runQuery? env language file root (s.primary env language)
  | .fallbackQuery => runQuery? env language file root (s.fallback env language)
  | .structural =>
    let captures := structuralCaptures language root
    (⟨captureBlocks env.settings language file captures, captures.length, 0⟩, s)
  | .wholeFile =>
    let blocks := if env.settings.wholeFileFallback then
      (wholeFileBlock? env.settings file).toList else []
    (⟨blocks, 0, 0⟩, s)

/-- Tries strategies until one gives blocks; `captures` and `skipped` count those before. -/
def tryInOrder (env : Environment) (language : String) (file : SourceText) (root : Node) :
    List Strategy → (captures skipped : Nat) → Services → Findings × Services
  | [], captures, skipped, s => (⟨none, [], captures, skipped⟩, s)
  | strategy :: rest, captures, skipped, s =>
    let (a, s) := s.attempt env language file root strategy
    let captures := captures + a.captures
    let skipped := skipped + a.skipped
    if a.blocks.isEmpty then tryInOrder env language file root rest captures skipped s
    else (⟨some strategy, boundBlocks env.settings language a.blocks, captures, skipped⟩, s)

def extractFromRoot (s : Services) (env : Environment) (language : String) (file : SourceText)
    (root : Node) : Extraction × Services :=
  match s.precheck language file with
  | (some outcome, s) => (outcome, s)
  | (none, s) =>
    let (findings, s) := tryInOrder env language file root Strategy.order 0 0 s
    (.extracted language findings, s)

/-- The blocks of a file whose parser is at hand. The parser has a grammar and no limit of time, so it
gives a tree for every text, and nothing that is done with the tree panics: a parse without a tree and a
panic, which would fail the file as malformed, are no outcomes here. -/
def extractParsed (s : Services) (env : Environment) (language : String) (file : SourceFile) :
    Extraction × Services :=
  match s.precheck language file.toSourceText with
  | (some outcome, s) => (outcome, s)
  | (none, s) => s.extractFromRoot env language file.toSourceText file.tree

/-- The blocks of a file, with a parser checked out for it alone. -/
def extract (s : Services) (env : Environment) (language : String) (file : SourceFile) :
    Extraction × Services :=
  match s.precheck language file.toSourceText with
  | (some outcome, s) => (outcome, s)
  | (none, s) =>
    match s.acquire language with
    | (none, s) => (.failed s!"no parser available for {language}", s)
    | (some lease, s) =>
      let (outcome, s) := s.extractParsed env language file
      (outcome, s.release lease)

/-- The blocks of captures that come from elsewhere. -/
def blocksOfCaptures (s : Services) (env : Environment) (language : String) (file : SourceText)
    (set : CaptureSet) : List Block × Services :=
  let captures := set.normalize
  (boundBlocks env.settings language
      (captureBlocks env.settings language file captures.captures),
    s.noteSkipped language file captures)

end Services

end SourceBlocks
