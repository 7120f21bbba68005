import SourceBlocks.Text.Path

/-! # Tests and examples by name

Files that are tests or examples by their name or by a directory above them, letter case aside. -/

namespace SourceBlocks

namespace FileName

def lower (s : String) : List Char := s.toList.map Char.toLower

def lowered (path : String) : List Char :=
  ((Text.fileName? path).map lower).getD []

/-- The second list occurs within the first. -/
def holds (cs part : List Char) : Bool :=
  match cs with
  | [] => part.isEmpty
  | c :: rest => part.isPrefixOf (c :: rest) || holds rest part

/-- Some directory of the path has this name, which is in lower case. -/
def underDirectory (path directory : String) : Bool :=
  match Text.parentComponents? path with
  | some above => above.any fun c => lower c.text == directory.toList
  | none => false

/-- `test_*`, `*_test.*`, `*.test.*`, `*.spec.*`, or anything under `tests`. -/
def isTest (path : String) : Bool :=
  let name := lowered path
  let stem := name.takeWhile (· != '.')
  "test_".toList.isPrefixOf name || "_test".toList.isSuffixOf stem ||
    holds name ".test.".toList || holds name ".spec.".toList || underDirectory path "tests"

/-- `example*`, `sample*`, `demo*`, or anything under `examples`. -/
def isExample (path : String) : Bool :=
  let name := lowered path
  ["example", "sample", "demo"].any (·.toList.isPrefixOf name) || underDirectory path "examples"

end FileName

end SourceBlocks
