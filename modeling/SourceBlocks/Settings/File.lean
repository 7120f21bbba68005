import SourceBlocks.Failure.Basic
import SourceBlocks.File.Store
import SourceBlocks.Settings.Document

/-! # Settings from a file

A settings file is read, checked, and then overridden by variables. -/

namespace SourceBlocks

/-- Why a settings file cannot be used. -/
inductive SettingsFileFault where
  | unreadable (path : String) (error : FileError)
  | invalid (path : String) (fault : SettingsFault)
  | overridden (error : SettingsError)
  deriving DecidableEq, Repr

def SettingsFileFault.context : SettingsFileFault → String
  | unreadable path error => s!"Failed to read config file {path}: {error.message}"
  | invalid path _ => s!"Invalid config file {path}"
  | overridden error => (Failure.invalidSettings error.message).message

/-- The settings of a file under variables. -/
def Settings.ofFile (store : FileStore) (path : String) (v : Variables) :
    Except SettingsFileFault Settings :=
  match store.readText path with
  | .error e => .error (.unreadable path e)
  | .ok text =>
    match Settings.ofDocument text with
    | .error fault => .error (.invalid path fault)
    | .ok s =>
      match s.override v with
      | (s, none) => .ok s
      | (_, some e) => .error (.overridden e)

end SourceBlocks
