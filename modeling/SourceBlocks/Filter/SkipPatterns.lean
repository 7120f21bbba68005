import SourceBlocks.Filter.Glob
import SourceBlocks.Text.Blank
import SourceBlocks.Text.Path

/-! # Skip patterns

A pattern that ends in a slash names a directory and is compared with whole segments of a path. Any
other pattern is a glob for the file name or the whole path. Globs that are not well formed are
dropped. -/

namespace SourceBlocks

structure SkipPatterns where
  directories : List String
  globs : List Glob
  deriving DecidableEq, Repr

namespace SkipPatterns

/-- One pattern as written. -/
inductive Entry where
  | directory (name : String)
  | glob (g : Glob)
  deriving DecidableEq, Repr

/-- The meaning of a trimmed pattern. -/
def entry? (pattern : String) : Option Entry :=
  match pattern.toList.getLast? with
  | none => none
  | some '/' => some (.directory (String.ofList pattern.toList.dropLast))
  | some _ => (Glob.ofText? pattern).map .glob

def ofList (patterns : List String) : SkipPatterns :=
  let entries := patterns.filterMap fun p => entry? (Text.trim p)
  { directories := entries.filterMap fun
      | .directory name => some name
      | .glob _ => none
    globs := entries.filterMap fun
      | .directory _ => none
      | .glob g => some g }

def isEmpty (p : SkipPatterns) : Bool := p.directories.isEmpty && p.globs.isEmpty

def normalize (path : String) : String :=
  String.ofList (path.toList.map fun c => if c == '\\' then '/' else c)

/-- The segments of a normalized path that are not empty. -/
def pathSegments (path : String) : List String :=
  (Text.segments (normalize path)).filter (· != "")

/-- The first pattern that matches a path, directories first. -/
def matching? (p : SkipPatterns) (path : String) : Option String :=
  let segments := pathSegments path
  match p.directories.find? segments.contains with
  | some name => some (name ++ "/")
  | none =>
    let name := segments.getLast?.getD ""
    (p.globs.find? fun g => g.accepts name || g.accepts (normalize path)).map (·.text)

def isMatch (p : SkipPatterns) (path : String) : Bool := (p.matching? path).isSome

end SkipPatterns

end SourceBlocks
