import SourceBlocks.Failure.Basic
import SourceBlocks.Numeric.Tally

/-! # Failure log

Every failure is reported with its origin. The log counts reports in all, by language and by
operation; a report without a language counts under `unknown`. -/

namespace SourceBlocks

structure Origin where
  component : String
  operation : String
  language : Option String := none
  path : Option String := none
  deriving DecidableEq, Repr

def Origin.operationKey (o : Origin) : String := o.component ++ "." ++ o.operation

/-- The key for reports without a language. -/
def unknownLanguage : String := "unknown"

def Origin.languageKey (o : Origin) : String := o.language.getD unknownLanguage

structure Report where
  failure : Failure
  origin : Origin
  severity : Severity
  deriving DecidableEq, Repr

/-- A report at the failure's own severity. -/
def Failure.reportAt (f : Failure) (origin : Origin) : Report := ⟨f, origin, f.severity⟩

inductive LogLevel where
  | debug
  | warn
  | error
  deriving DecidableEq, Repr

def Severity.level : Severity → LogLevel
  | .low => .debug
  | .medium => .warn
  | .high | .critical => .error

structure LogLine where
  level : LogLevel
  component : String
  operation : String
  language : String
  path : String
  category : FailureCategory
  severity : Severity
  message : String
  deriving DecidableEq, Repr

def Report.line (r : Report) : LogLine where
  level := r.severity.level
  component := r.origin.component
  operation := r.origin.operation
  language := r.origin.languageKey
  path := r.origin.path.getD ""
  category := r.failure.category
  severity := r.severity
  message := r.failure.message

/-- Counters of all reports. -/
structure FailureLog where
  total : Nat
  byLanguage : Tally
  byOperation : Tally
  deriving DecidableEq, Repr

namespace FailureLog

def empty : FailureLog := ⟨0, [], []⟩

def record (log : FailureLog) (r : Report) : FailureLog where
  total := log.total + 1
  byLanguage := log.byLanguage.bump r.origin.languageKey
  byOperation := log.byOperation.bump r.origin.operationKey

end FailureLog

end SourceBlocks
