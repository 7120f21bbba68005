import SourceBlocks.Text.Path
import SourceBlocks.Text.Utf8

/-! # Files in memory

A tree of directories and files below a working directory, and how paths lead through it. Nothing is
known of what lies outside. -/

namespace SourceBlocks

/-- What a path leads to. -/
inductive FileEntry where
  | directory
  | regular (bytes : List UInt8)
  deriving DecidableEq, Repr

/-- Why a path leads nowhere or cannot be read. -/
inductive FileError where
  | notFound
  | notDirectory
  | isDirectory
  | nameTooLong
  | nulByte
  | notUtf8
  deriving DecidableEq, Repr

def FileError.message : FileError → String
  | notFound => "No such file or directory (os error 2)"
  | notDirectory => "Not a directory (os error 20)"
  | isDirectory => "Is a directory (os error 21)"
  | nameTooLong => "File name too long (os error 36)"
  | nulByte => "file name contained an unexpected NUL byte"
  | notUtf8 => "stream did not contain valid UTF-8"

/-- Entries by the names that lead to them. Directories above an entry need none of their own. -/
structure FileStore where
  entries : List (List String × FileEntry)
  deriving Repr

namespace FileStore

def empty : FileStore := ⟨[]⟩

/-- The names that a path amounts to, and those of each directory that it leaves through `..`. -/
def names (path : String) : List String × List (List String) :=
  (Text.components path).foldl (fun (names, left) component =>
    match component with
    | .name t => (names ++ [t], left)
    | .parent => (names.dropLast, names :: left)
    | .root | .current => (names, left)) ([], [])

/-- Adds an entry, in place of an earlier one. Directories that the path leaves through `..` exist
from then on. -/
def add (store : FileStore) (path : String) (entry : FileEntry) : FileStore :=
  let (names, left) := names path
  ⟨(names, entry) :: left.map (·, .directory) ++ store.entries⟩

def find? (store : FileStore) (names : List String) : Option FileEntry :=
  if names.isEmpty then some .directory
  else match store.entries.lookup names with
    | some e => some e
    | none =>
      if store.entries.any fun e => names.isPrefixOf e.1 then some .directory else none

/-- The longest name and the shortest path that is too long, in bytes. -/
def maxNameBytes : Nat := 255

def pathTooLong : Nat := 4096

/-- A place on the way along a path: an entry with the names that lead to it, innermost first, or a
directory outside. -/
inductive Place where
  | inside (names : List String) (entry : FileEntry)
  | outside
  deriving Repr

def walkStep (store : FileStore) (segment : String) : Place → Except FileError Place
  | .inside _ (.regular _) => .error .notDirectory
  | .inside names .directory =>
    if segment = "" || segment = "." then .ok (.inside names .directory)
    else if segment = ".." then
      match names with
      | [] => .ok .outside
      | _ :: above => .ok (.inside above .directory)
    else if maxNameBytes < segment.utf8ByteSize then .error .nameTooLong
    else
      match store.find? (segment :: names).reverse with
      | some entry => .ok (.inside (segment :: names) entry)
      | none => .error .notFound
  | .outside =>
    if segment = "" || segment = "." || segment = ".." then .ok .outside
    else if maxNameBytes < segment.utf8ByteSize then .error .nameTooLong
    else .error .notFound

def walk (store : FileStore) : List String → Place → Except FileError Place
  | [], place => .ok place
  | segment :: rest, place => (store.walkStep segment place).bind (store.walk rest)

def lookup (store : FileStore) (path : String) : Except FileError FileEntry :=
  if path.toList.any (·.toNat == 0) then .error .nulByte
  else if path = "" then .error .notFound
  else if pathTooLong ≤ path.utf8ByteSize then .error .nameTooLong
  else
    let start := if path.toList.head? = some '/' then .outside else .inside [] .directory
    (store.walk (Text.segments path) start).map fun
      | .inside _ entry => entry
      | .outside => .directory

def read (store : FileStore) (path : String) : Except FileError (List UInt8) :=
  match store.lookup path with
  | .error e => .error e
  | .ok .directory => .error .isDirectory
  | .ok (.regular bytes) => .ok bytes

/-- The text of a file, which must be UTF-8. -/
def readText (store : FileStore) (path : String) : Except FileError String :=
  match store.read path with
  | .error e => .error e
  | .ok bytes =>
    match Text.decode? bytes with
    | some text => .ok text
    | none => .error .notUtf8

end FileStore

end SourceBlocks
