import SourceBlocks.Document.Form
import SourceBlocks.Settings.Variables

/-! # Settings from a document

The keys under which settings are written, in the order of their declaration. -/

namespace SourceBlocks

open Form in
def LanguageOverride.fields : List (Form.Field LanguageOverride) :=
  [field "max_file_size_bytes" (optional natural) fun v o => { o with maxFileBytes := v },
    field "max_blocks_per_file" (optional natural) fun v o => { o with maxBlocks := v },
    field "timeout_multiplier" (optional float) fun v o => { o with timeoutMultiplier := v }]

def LanguageOverride.form : Form LanguageOverride := .record fields {}

def ChunkerKind.names : List (String × ChunkerKind) :=
  [("lines", .lines), ("tokens", .tokens), ("treesitter", .structural)]

namespace Settings

open Form in
def fields : List (Form.Field Settings) :=
  [field "chunking_strategy" (choice ChunkerKind.names) fun v s => { s with chunker := v },
    field "use_structural_chunking" bool fun v s => { s with structuralEnabled := v },
    field "skip_test_files" bool fun v s => { s with skipTests := v },
    field "skip_examples" bool fun v s => { s with skipExamples := v },
    field "skip_patterns" (listOf text) fun v s => { s with skipPatterns := v },
    field "max_file_size_bytes" natural fun v s => { s with maxFileBytes := v },
    field "max_blocks_per_file" natural fun v s => { s with maxBlocks := v },
    field "max_functions_per_file" natural fun v s => { s with maxFunctions := v },
    field "max_classes_per_file" natural fun v s => { s with maxClasses := v },
    field "max_impl_blocks_per_file" natural fun v s => { s with maxImpls := v },
    field "min_block_chars" natural fun v s => { s with minBlockChars := v },
    field "timeout_seconds" float fun v s => { s with timeoutSeconds := v },
    field "debug_logging" bool fun v s => { s with debugLogging := v },
    field "query_cache_size" natural fun v s => { s with cacheCapacity := v },
    field "query_cache_ttl_seconds" natural fun v s => { s with cacheTtlSeconds := v },
    field "preload_languages" (listOf text) fun v s => { s with preload := v },
    field "fallback_to_lines" bool fun v s => { s with fallbackToLines := v },
    field "whole_file_fallback" bool fun v s => { s with wholeFileFallback := v },
    field "parallel_languages" bool fun v s => { s with parallelGroups := v },
    field "line_chunk_max_chars" natural fun v s => { s with lineWindowChars := v },
    field "token_chunk_size" natural fun v s => { s with tokenWindow := v },
    field "token_chunk_overlap" natural fun v s => { s with tokenOverlap := v },
    field "language_overrides" (mapOf LanguageOverride.form) fun v s =>
      { s with overrides := v }]

def form : Form Settings := .record fields {}

end Settings

/-- Why settings cannot be loaded. -/
inductive SettingsFault where
  | document (fault : ReadFault)
  | settings (error : SettingsError)
  deriving DecidableEq, Repr

/-- The settings of a document, once the whole of it is read and they are valid. -/
def Settings.ofDocument (text : String) : Except SettingsFault Settings :=
  match Reader.readAll Settings.form.read text with
  | .error fault => .error (.document fault)
  | .ok s =>
    match s.invalid? with
    | some e => .error (.settings e)
    | none => .ok s

/-- The settings of a JSON value; nothing is said of their validity. -/
def Settings.ofValue (v : DocumentValue) : Except SettingsFault Settings :=
  match Settings.form.ofValue? v with
  | some s => .ok s
  | none => .error (.document .mismatched)

end SourceBlocks
