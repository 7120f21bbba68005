import SourceBlocks.Text.Located

/-! # Failures

What can go wrong with a file, a query, a parser or the settings, how each failure reads, and how
grave it is. -/

namespace SourceBlocks

/-- A failure and its cause. -/
inductive Failure where
  /-- No grammar or query exists for the language. -/
  | unsupportedLanguage (language : String)
  /-- A query text does not compile against its grammar. -/
  | queryRejected (language message : String)
  /-- The parser pool has no parser to hand out. -/
  | parserUnavailable (language reason : String)
  /-- A text gave no usable tree. -/
  | malformedSource (path reason : String)
  /-- A file was turned away before reading. -/
  | fileFiltered (path reason : String)
  /-- Capture records without a block capture. -/
  | unusableCaptures (detail : String)
  /-- A grammar does not fit the parser. -/
  | incompatibleGrammar (detail : String)
  /-- The file system refused. -/
  | inputOutput (detail : String)
  /-- A settings document cannot be read. -/
  | unreadableDocument (detail : LocatedText)
  /-- Settings contradict each other or name something unknown. -/
  | invalidSettings (detail : String)
  deriving DecidableEq, Repr

inductive FailureCategory where
  | parsing
  | resourceManagement
  | fileSystem
  | configuration
  deriving DecidableEq, Repr

inductive Severity where
  | low
  | medium
  | high
  | critical
  deriving DecidableEq, Repr

namespace Failure

def message : Failure → String
  | unsupportedLanguage language => s!"unsupported language: {language}"
  | queryRejected language text => s!"query compilation failed for {language}: {text}"
  | parserUnavailable language reason => s!"resources unavailable for {language}: {reason}"
  | malformedSource path reason => s!"malformed source in {path}: {reason}"
  | fileFiltered path reason => s!"file filtered: {path} ({reason})"
  | unusableCaptures detail => s!"capture normalization failed: {detail}"
  | incompatibleGrammar detail => s!"tree-sitter version incompatible: {detail}"
  | inputOutput detail => s!"IO error: {detail}"
  | unreadableDocument detail => s!"JSON error: {detail.render}"
  | invalidSettings detail => s!"invalid configuration: {detail}"

def category : Failure → FailureCategory
  | unsupportedLanguage _ | queryRejected .. | malformedSource .. | unusableCaptures _ => .parsing
  | parserUnavailable .. | incompatibleGrammar _ => .resourceManagement
  | fileFiltered .. | inputOutput _ => .fileSystem
  | unreadableDocument _ | invalidSettings _ => .configuration

/-- The severity of a failure unless its reporter says otherwise. -/
def severity : Failure → Severity
  | unsupportedLanguage _ | fileFiltered .. => .low
  | incompatibleGrammar _ => .critical
  | invalidSettings _ | unreadableDocument _ => .high
  | _ => .medium

end Failure

end SourceBlocks
