import SourceBlocks.Query.Pattern

/-! # Captures of a query run

The result of a query run comes in three shapes: one record per match, one stream of captures with
the number of their match, or one group of nodes per name and match. All are reduced to the same
list of captures: a body, its block type, and perhaps the node of its name. -/

namespace SourceBlocks

def nameCapture : String := "name"

def captureTypes : List String :=
  ["function", "method", "class", "struct", "enum", "trait", "impl", "interface", "type", "module",
    "constructor", "heading", "code_block", "pair", "table", "script", "style", "element", "rule",
    "media", "keyframes", "command"]

/-- The block type of a capture name; `name` stays, and any other name is a plain block. -/
def captureType (name : String) : String :=
  if name = nameCapture || captureTypes.contains name then name else "block"

/-- A body, its block type, and the node of its name if one was captured. -/
structure Capture where
  type : String
  name : Option Node
  body : Node

namespace Capture

/-- By the byte at which the body starts, then by the byte at which it stops. -/
def le (a b : Capture) : Bool :=
  a.body.start.byte < b.body.start.byte ||
    (a.body.start.byte == b.body.start.byte && a.body.stop.byte ≤ b.body.stop.byte)

/-- The first capture that is no name is the body; the first that is one is the name. -/
def ofRecord? (r : Record) : Option Capture :=
  match r.find? (·.1 != nameCapture) with
  | none => none
  | some (type, body) => some ⟨type, (r.find? (·.1 == nameCapture)).map (·.2), body⟩

end Capture

/-- Nodes by capture name, names in increasing order. -/
abbrev NodesByName := List (String × List Node)

namespace NodesByName

def add (name : String) (nodes : List Node) : NodesByName → NodesByName
  | [] => [(name, nodes)]
  | (k, ns) :: rest =>
    if k = name then (k, ns ++ nodes) :: rest
    else if name < k then (name, nodes) :: (k, ns) :: rest
    else (k, ns) :: add name nodes rest

def ofRecord (r : Record) : NodesByName := r.foldl (fun g (name, node) => add name [node] g) []

def toRecord (g : NodesByName) : Record := g.flatMap fun (name, nodes) => nodes.map (name, ·)

end NodesByName

/-- A capture with the number of the match that it belongs to. -/
structure StreamCapture where
  matchId : Nat
  name : String
  node : Node

/-- Puts a capture to its match; one that the match already has changes nothing. -/
def addToMatch (c : StreamCapture) : List (Nat × Record) → List (Nat × Record)
  | [] => [(c.matchId, [(c.name, c.node)])]
  | (id, r) :: rest =>
    if id = c.matchId then
      if r.any (fun p => p.1 == c.name && p.2.id == c.node.id) then (id, r) :: rest
      else (id, r ++ [(c.name, c.node)]) :: rest
    else (id, r) :: addToMatch c rest

/-- The result of a query run. -/
inductive CaptureSet where
  | records (rs : List Record)
  | stream (captures : List StreamCapture)
  | grouped (groups : List NodesByName)

/-- Captures in order, the number of records, and how many of them were passed over for want of a
body. -/
structure NormalCaptures where
  captures : List Capture
  total : Nat
  skipped : Nat

namespace CaptureSet

def typed (r : Record) : Record := r.map fun (name, node) => (captureType name, node)

def ofMatches (matched : List Record) : CaptureSet := .records (matched.map typed)

def ofStream (captures : List StreamCapture) : CaptureSet :=
  .stream (captures.map fun c => { c with name := captureType c.name })

def ofGroups (matched : List Record) : CaptureSet :=
  .grouped (matched.map fun r => NodesByName.ofRecord (typed r))

/-- The records of any shape; those of a stream in the order in which its matches begin. -/
def toRecords : CaptureSet → List Record
  | records rs => rs
  | stream captures => (captures.foldl (fun groups c => addToMatch c groups) []).map (·.2)
  | grouped groups => groups.map NodesByName.toRecord

/-- The captures of all records that have a body, by range and else in the order of records. -/
def normalize (set : CaptureSet) : NormalCaptures :=
  let records := set.toRecords
  { captures := (records.filterMap Capture.ofRecord?).mergeSort Capture.le
    total := records.length
    skipped := records.countP fun r => !(Capture.ofRecord? r).isSome }

end CaptureSet

end SourceBlocks
