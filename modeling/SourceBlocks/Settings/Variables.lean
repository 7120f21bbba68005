import SourceBlocks.Numeric.FloatText
import SourceBlocks.Settings.Basic
import SourceBlocks.Text.Blank

/-! # Settings from variables

Two variables override settings. They are applied one after the other and the settings are checked
last; what was set before an error stays set. -/

namespace SourceBlocks

/-- The way of cutting that a name stands for, letter case and surrounding white space aside. -/
def ChunkerKind.ofName (name : String) : Except SettingsError ChunkerKind :=
  let name := String.ofList ((Text.trim name).toList.map Char.toLower)
  if name = "lines" then .ok .lines
  else if name = "tokens" then .ok .tokens
  else if name = "treesitter" || name = "tree-sitter" || name = "tree_sitter" then .ok .structural
  else .error (.unknownChunker name)

/-- The values of the variables that are set. -/
structure Variables where
  timeout : Option String
  chunker : Option String
  deriving Repr

namespace Settings

def setTimeout (s : Settings) (raw : String) : Except SettingsError Settings :=
  match Numeric.float? (Text.trim raw) with
  | some seconds => .ok { s with timeoutSeconds := seconds }
  | none => .error (.timeoutNotANumber raw)

def setChunker (s : Settings) (raw : String) : Except SettingsError Settings :=
  (ChunkerKind.ofName raw).map fun chunker => { s with chunker }

/-- The settings under a step that may fail, and the error if it did. -/
def attempt (s : Settings) (value : Option String)
    (step : Settings → String → Except SettingsError Settings) :
    Settings × Option SettingsError :=
  match value with
  | none => (s, none)
  | some raw =>
    match step s raw with
    | .ok s => (s, none)
    | .error e => (s, some e)

/-- The settings after the variables, and what stopped them from being applied or is invalid. -/
def override (s : Settings) (v : Variables) : Settings × Option SettingsError :=
  match s.attempt v.timeout setTimeout with
  | (s, some e) => (s, some e)
  | (s, none) =>
    match s.attempt v.chunker setChunker with
    | (s, some e) => (s, some e)
    | (s, none) => (s, s.invalid?)

end Settings

end SourceBlocks
