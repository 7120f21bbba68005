import SourceBlocks.Text.Blank
import SourceBlocks.Text.Path

/-! # Language of a path

A path belongs to the language of its file name, if that is a special one, else to the language of
its last extension. Letter case does not matter, and both kinds of slashes separate. A detector
remembers its answer for each path. -/

namespace SourceBlocks

namespace Detection

def fileNames : List (String × String) :=
  [("dockerfile", "dockerfile"), ("containerfile", "dockerfile"), ("makefile", "make"),
    ("gnumakefile", "make"), ("cmakelists.txt", "cmake"), ("gemfile", "ruby"),
    ("rakefile", "ruby"), ("podfile", "ruby"), ("vagrantfile", "ruby"), ("jenkinsfile", "groovy"),
    ("build", "bazel"), ("build.bazel", "bazel"), ("workspace", "bazel"), ("cargo.lock", "toml"),
    ("pipfile", "toml"), (".bashrc", "bash"), (".bash_profile", "bash"), (".zshrc", "bash"),
    (".profile", "bash")]

def extensions : List (String × String) :=
  [("rs", "rust"), ("c", "c"), ("h", "c"), ("cpp", "cpp"), ("cc", "cpp"), ("cxx", "cpp"),
    ("hpp", "cpp"), ("hh", "cpp"), ("hxx", "cpp"), ("go", "go"), ("zig", "zig"),
    ("js", "javascript"), ("jsx", "javascript"), ("mjs", "javascript"), ("cjs", "javascript"),
    ("ts", "typescript"), ("mts", "typescript"), ("cts", "typescript"), ("tsx", "tsx"),
    ("html", "html"), ("htm", "html"), ("css", "css"), ("scss", "scss"), ("vue", "vue"),
    ("svelte", "svelte"),
    ("py", "python"), ("pyi", "python"), ("java", "java"), ("cs", "csharp"), ("php", "php"),
    ("rb", "ruby"), ("swift", "swift"), ("kt", "kotlin"), ("kts", "kotlin"), ("scala", "scala"),
    ("dart", "dart"), ("ex", "elixir"), ("exs", "elixir"), ("erl", "erlang"), ("hs", "haskell"),
    ("ml", "ocaml"), ("clj", "clojure"), ("jl", "julia"), ("pl", "perl"), ("r", "r"),
    ("sol", "solidity"),
    ("lua", "lua"), ("sh", "bash"), ("bash", "bash"), ("zsh", "bash"), ("ps1", "powershell"),
    ("md", "markdown"), ("markdown", "markdown"), ("json", "json"), ("jsonc", "json"),
    ("toml", "toml"), ("yml", "yaml"), ("yaml", "yaml"), ("sql", "sql"), ("graphql", "graphql"),
    ("gql", "graphql"), ("proto", "protobuf"), ("tf", "terraform"), ("hcl", "hcl")]

/-- What follows the last slash or backslash, in lower case. -/
def lastComponent (path : String) : String :=
  match (Text.splitOn (fun c => c == '/' || c == '\\') path.toList).getLast? with
  | some cs => String.ofList (cs.map Char.toLower)
  | none => ""

/-- The language of a file name or, failing that, of its extension. -/
def ofFileName? (name : String) : Option String :=
  (fileNames.lookup name).or ((Text.extension? name).bind fun ext => extensions.lookup ext)

/-- The language of a path; a blank path has none. -/
def languageOf? (path : String) : Option String :=
  if Text.isBlankText path then none else ofFileName? (lastComponent path)

/-- The language of an extension, with or without leading dots. -/
def ofExtension? (ext : String) : Option String :=
  extensions.lookup (String.ofList ((ext.toList.dropWhile (· == '.')).map Char.toLower))

/-- Members of a list, each once, in increasing order. -/
def sortedNames (names : List String) : List String :=
  names.eraseDups.mergeSort (fun a b => decide (a ≤ b))

def extensionsOf (language : String) : List String :=
  sortedNames ((extensions.filter (·.2 == language)).map ("." ++ ·.1))

def languages : List String :=
  sortedNames ((extensions ++ fileNames).map (·.2))

def isSupported (language : String) : Bool :=
  (extensions ++ fileNames).any (·.2 == language)

end Detection

structure DetectorInfo where
  remembered : Nat
  languages : Nat
  extensions : Nat
  fileNames : Nat
  deriving DecidableEq, Repr

/-- Answers given so far, by path. -/
structure Detector where
  memo : List (String × Option String)
  deriving Repr

namespace Detector

def empty : Detector := ⟨[]⟩

/-- The remembered answer, or a new one that is remembered unless the path is blank. -/
def detect (d : Detector) (path : String) : Option String × Detector :=
  if Text.isBlankText path then (none, d)
  else match d.memo.lookup path with
    | some answer => (answer, d)
    | none =>
      let answer := Detection.languageOf? path
      (answer, ⟨(path, answer) :: d.memo⟩)

def size (d : Detector) : Nat := d.memo.length

def info (d : Detector) : DetectorInfo where
  remembered := d.size
  languages := Detection.languages.length
  extensions := Detection.extensions.length
  fileNames := Detection.fileNames.length

end Detector

end SourceBlocks
