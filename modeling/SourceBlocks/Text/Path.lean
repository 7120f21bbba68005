/-! # Paths

A path is a text whose components stand between slashes. Repeated slashes and a dot on its own
vanish, except a dot at the very start of a relative path. A backslash is an ordinary character. -/

namespace SourceBlocks.Text

inductive Component where
  | root
  | current
  | parent
  | name (text : String)
  deriving DecidableEq, Repr

def Component.text : Component → String
  | .root => "/"
  | .current => "."
  | .parent => ".."
  | .name t => t

/-- The pieces of a list between the members of `p`; there is one more piece than separators. -/
def splitOn (p : Char → Bool) (cs : List Char) : List (List Char) :=
  cs.foldr (fun c pieces =>
    if p c then [] :: pieces
    else match pieces with
      | [] => [[c]]
      | l :: ls => (c :: l) :: ls) [[]]

def segments (path : String) : List String :=
  (splitOn (· == '/') path.toList).map String.ofList

/-- A piece between slashes that is neither empty nor a dot. -/
def Component.ofSegment? (segment : String) : Option Component :=
  if segment = "" || segment = "." then none
  else if segment = ".." then some .parent
  else some (.name segment)

/-- The components of a path. -/
def components (path : String) : List Component :=
  let body := (segments path).filterMap Component.ofSegment?
  match segments path with
  | "" :: _ :: _ => .root :: body
  | "." :: _ => .current :: body
  | _ => body

def fileName? (path : String) : Option String :=
  match (components path).getLast? with
  | some (.name t) => some t
  | _ => none

/-- The components before the last one; `none` for the root and for a path without components. -/
def parentComponents? (path : String) : Option (List Component) :=
  match (components path).getLast? with
  | none => none
  | some .root => none
  | some _ => some (components path).dropLast

/-- What follows the last dot of a file name, unless that dot is its first character. -/
def nameExtension? (name : String) : Option String :=
  match splitOn (· == '.') name.toList with
  | [] => none
  | [_] => none
  | [[], _] => none
  | pieces => pieces.getLast?.map String.ofList

def extension? (path : String) : Option String :=
  (fileName? path).bind nameExtension?

end SourceBlocks.Text
