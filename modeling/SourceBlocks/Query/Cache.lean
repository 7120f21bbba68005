import SourceBlocks.Failure.Basic
import SourceBlocks.Language.Catalogue

/-! # Cache of compiled queries

A bounded cache of compiled queries by language and text. An entry expires when it was not used for
longer than the time to live, and a full cache drops the entry not used for the longest time. A text
that does not compile is remembered with its error. The clock is a number of nanoseconds that each
operation is handed. -/

namespace SourceBlocks

/-- What a compiled query captures and the patterns it runs. -/
structure Program where
  captures : List String
  patterns : List Pattern
  deriving Repr

def Query.program (q : Query) : Program := ⟨q.captures, q.patterns⟩

/-- Compiles a text for a language with a grammar, or says why it does not compile. -/
abbrev QueryCompiler := (language text : String) → Except String Program

def Catalogue.ofText? (language text : String) : Option Query :=
  ((primaryOf? language).toList ++ (fallbackOf? language).toList).find? (·.text == text)

/-- Compiles what stands in the catalogue and nothing else. -/
def Catalogue.compiler : QueryCompiler := fun language text =>
  match ofText? language text with
  | some q => .ok q.program
  | none => .error "unknown query"

structure QueryKey where
  language : String
  text : String
  deriving DecidableEq, Repr

/-- A compiled query. Two handles are the same when their serial numbers are. -/
structure QueryHandle where
  serial : Nat
  key : QueryKey
  program : Program
  deriving Repr

/-- A cached query or compilation error, the time of its last use, and how often it was used. The
query, whether there is one, and the error are fields of their own. -/
structure CacheEntry where
  key : QueryKey
  handle? : Option QueryHandle
  isValid : Bool
  error? : Option String
  lastUsed : Nat
  uses : Nat

namespace CacheEntry

def captureCount (e : CacheEntry) : Nat :=
  match e.handle? with
  | some h => h.program.captures.length
  | none => 0

def touch (e : CacheEntry) (now : Nat) : CacheEntry := { e with lastUsed := now, uses := e.uses + 1 }

def touchKey (key : QueryKey) (now : Nat) (e : CacheEntry) : CacheEntry :=
  if e.key = key then e.touch now else e

end CacheEntry

/-- At most `capacity` entries; a time to live of zero never ends. -/
structure QueryCache where
  capacity : Nat
  ttl : Nat
  entries : List CacheEntry
  nextSerial : Nat

structure CacheInfo where
  size : Nat
  valid : Nat
  invalid : Nat
  capacity : Nat
  ttlSeconds : Nat
  deriving DecidableEq, Repr

structure LanguageQueries where
  cached : Nat
  valid : Nat
  invalid : Nat
  uses : Nat
  hasPrimary : Bool
  hasFallback : Bool
  deriving DecidableEq, Repr

/-- The answer to a request: a handle if the text compiles, the cache afterwards, and the failure to
report if the text was compiled and failed. -/
structure QueryAnswer where
  handle : Option QueryHandle
  cache : QueryCache
  failure : Option Failure

namespace QueryCache

def empty (capacity ttl : Nat) : QueryCache := ⟨max capacity 1, ttl, [], 0⟩

def find? (c : QueryCache) (key : QueryKey) : Option CacheEntry :=
  c.entries.find? (·.key == key)

/-- The entry was not used for longer than the time to live. -/
def isExpired (c : QueryCache) (now : Nat) (e : CacheEntry) : Bool :=
  c.ttl != 0 && c.ttl < now - e.lastUsed

def erase (c : QueryCache) (key : QueryKey) : QueryCache :=
  { c with entries := c.entries.filter (·.key != key) }

/-- The entry whose last use is the longest ago. -/
def oldest? : List CacheEntry → Option CacheEntry
  | [] => none
  | e :: es => some (match oldest? es with
    | some o => if o.lastUsed < e.lastUsed then o else e
    | none => e)

/-- The cache with room for one more entry. -/
def makeRoom (c : QueryCache) : QueryCache :=
  if c.entries.length < c.capacity then c
  else match oldest? c.entries with
    | some e => c.erase e.key
    | none => c

def insert (c : QueryCache) (e : CacheEntry) : QueryCache :=
  let c := c.makeRoom
  { c with entries := e :: c.entries }

/-- Counts one more use of the entry of a key. -/
def touch (c : QueryCache) (now : Nat) (key : QueryKey) : QueryCache :=
  { c with entries := c.entries.map (CacheEntry.touchKey key now) }

/-- Puts in a new entry and answers from it. Where its key got one while the text was being compiled,
that one stays and answers. -/
def remember (c : QueryCache) (now : Nat) (e : CacheEntry) : Option QueryHandle × QueryCache :=
  match c.find? e.key with
  | some there => (there.handle?, c.touch now e.key)
  | none => (e.handle?, c.insert e)

/-- Compiles a text anew and remembers the outcome. -/
def compileNew (c : QueryCache) (compiler : QueryCompiler) (now : Nat) (key : QueryKey) :
    QueryAnswer :=
  if Language.hasGrammar key.language then
    match compiler key.language key.text with
    | .ok program =>
      let remembered := c.remember now
        { key
          handle? := some ⟨c.nextSerial, key, program⟩
          isValid := true
          error? := none
          lastUsed := now
          uses := 1 }
      { handle := remembered.1
        cache := { remembered.2 with nextSerial := c.nextSerial + 1 }
        failure := none }
    | .error message =>
      let remembered := c.remember now
        { key
          handle? := none
          isValid := false
          error? := some message
          lastUsed := now
          uses := 1 }
      { handle := remembered.1
        cache := remembered.2
        failure := some (.queryRejected key.language message) }
  else
    { handle := none, cache := c, failure := some (.unsupportedLanguage key.language) }

/-- Answers from the entry of the key unless it has expired; else compiles anew. -/
def request (c : QueryCache) (compiler : QueryCompiler) (now : Nat) (key : QueryKey) :
    QueryAnswer :=
  match c.find? key with
  | none => c.compileNew compiler now key
  | some e =>
    if c.isExpired now e then (c.erase key).compileNew compiler now key
    else { handle := e.handle?, cache := c.touch now key, failure := none }

/-- Drops the expired entries and says how many. -/
def sweep (c : QueryCache) (now : Nat) : Nat × QueryCache :=
  let kept := c.entries.filter fun e => !c.isExpired now e
  (c.entries.length - kept.length, { c with entries := kept })

def clear (c : QueryCache) : QueryCache := { c with entries := [] }

def info (c : QueryCache) : CacheInfo :=
  let valid := c.entries.countP (·.isValid)
  { size := c.entries.length
    valid
    invalid := c.entries.length - valid
    capacity := c.capacity
    ttlSeconds := c.ttl / 1000000000 }

def languageQueries (c : QueryCache) (language : String) : LanguageQueries :=
  let entries := c.entries.filter (·.key.language == language)
  { cached := entries.length
    valid := entries.countP (·.isValid)
    invalid := entries.countP fun e => !e.isValid
    uses := entries.foldr (fun e n => e.uses + n) 0
    hasPrimary := (Catalogue.primaryOf? language).isSome
    hasFallback := (Catalogue.fallbackOf? language).isSome }

end QueryCache

end SourceBlocks
