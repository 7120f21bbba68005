/-! # Languages with a grammar

The closed set of languages whose texts can be parsed, and the keys they go by. Any other key is a
language without structural support. -/

namespace SourceBlocks

/-- A language with a grammar. -/
inductive Language where
  | rust | c | cpp | go | typescript | tsx | javascript | html | css | python | java | csharp | php
  | ruby | kotlin | lua | bash | markdown | json | toml | yaml
  deriving DecidableEq, Repr

namespace Language

def all : List Language :=
  [rust, c, cpp, go, typescript, tsx, javascript, html, css, python, java, csharp, php, ruby,
    kotlin, lua, bash, markdown, json, toml, yaml]

/-- The key of a language in settings, reports and results. -/
def key : Language → String
  | rust => "rust"
  | c => "c"
  | cpp => "cpp"
  | go => "go"
  | typescript => "typescript"
  | tsx => "tsx"
  | javascript => "javascript"
  | html => "html"
  | css => "css"
  | python => "python"
  | java => "java"
  | csharp => "csharp"
  | php => "php"
  | ruby => "ruby"
  | kotlin => "kotlin"
  | lua => "lua"
  | bash => "bash"
  | markdown => "markdown"
  | json => "json"
  | toml => "toml"
  | yaml => "yaml"

def ofKey? (key : String) : Option Language :=
  all.find? (·.key == key)

/-- The key belongs to a language with a grammar. -/
def hasGrammar (key : String) : Bool :=
  (ofKey? key).isSome

def noGrammarMessage (key : String) : String :=
  let available := ", ".intercalate (all.map Language.key)
  s!"No tree-sitter grammar for '{key}'. Available: {available}"

theorem mem_all (l : Language) : l ∈ all := by
  cases l <;> decide

theorem ofKey?_key (l : Language) : ofKey? l.key = some l := by
  cases l <;> decide

theorem key_of_ofKey? {k : String} {l : Language} (h : ofKey? k = some l) : l.key = k := by
  simpa using List.find?_some h

end Language

end SourceBlocks
