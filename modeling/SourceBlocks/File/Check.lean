import SourceBlocks.Block.Basic
import SourceBlocks.Digest.Blake3
import SourceBlocks.File.Store
import SourceBlocks.Filter.FileName
import SourceBlocks.Filter.SkipPatterns
import SourceBlocks.Session.Basic

/-! # Which files are indexed

Files are turned away by name, by kind, by size and by binary content, in this order. The limit of
the size is that of the file's language. -/

namespace SourceBlocks

inductive Rejection where
  | matchesPattern (pattern : String)
  | testFile
  | exampleFile
  | missing
  | notRegular
  | emptyFile
  | tooLarge (size limit : Nat)
  | binary
  deriving DecidableEq, Repr

def Rejection.reason : Rejection → String
  | matchesPattern pattern => s!"matches skip pattern '{pattern}'"
  | testFile => "test file"
  | exampleFile => "example file"
  | missing => "file does not exist"
  | notRegular => "not a regular file"
  | emptyFile => "empty file"
  | tooLarge size limit => s!"{size} bytes exceeds limit of {limit}"
  | binary => "binary content"

/-- Bytes at the start of a file that are searched for a zero byte. -/
def sniffedBytes : Nat := 8192

def Settings.rejectName? (s : Settings) (path : String) : Option Rejection :=
  match (SkipPatterns.ofList s.skipPatterns).matching? path with
  | some pattern => some (.matchesPattern pattern)
  | none =>
    if s.skipTests && FileName.isTest path then some .testFile
    else if s.skipExamples && FileName.isExample path then some .exampleFile
    else none

namespace Session

def rejectBytes? (st : Session) (settings : Settings) (path : String) (bytes : List UInt8) :
    Option Rejection × Session :=
  if bytes.isEmpty then (some .emptyFile, st)
  else
    let (limit, st) := st.maxFileBytes settings path
    if limit < bytes.length then (some (.tooLarge bytes.length limit), st)
    else if (bytes.take sniffedBytes).contains 0 then (some .binary, st)
    else (none, st)

def readOrigin (path : String) : Origin :=
  { component := "file_processor", operation := "validate_file", path := some path }

def filtered (path : String) (r : Rejection) : Failure := .fileFiltered path r.reason

/-- Why a file is not indexed; one that cannot be looked at is reported. -/
def check (st : Session) (settings : Settings) (store : FileStore) (path : String) :
    Option Failure × Session :=
  match settings.rejectName? path with
  | some r => (some (filtered path r), st)
  | none =>
    match store.lookup path with
    | .error .notFound => (some (filtered path .missing), st)
    | .error e =>
      let failure := Failure.inputOutput e.message
      (some failure,
        { st with services := st.services.report (failure.reportAt (readOrigin path)) })
    | .ok .directory => (some (filtered path .notRegular), st)
    | .ok (.regular bytes) =>
      let (r, st) := st.rejectBytes? settings path bytes
      (r.map (filtered path), st)

end Session

/-- A file with its text, read as UTF-8 as far as possible, and the hash of that text. -/
def SourceText.ofStore (store : FileStore) (path : String) : Except Failure SourceText :=
  match store.read path with
  | .error e => .error (.inputOutput e.message)
  | .ok bytes =>
    let text := Text.decodeLossy bytes
    .ok { path, hash := Digest.hashText text, text }

def Settings.structuralTuning? (s : Settings) (language : String) : Option LanguageTuning :=
  let tuning := s.tuning language
  if tuning.hasStructuralSupport then some tuning else none

end SourceBlocks
