import SourceBlocks.Tree.Node

/-! # Trees as tables

A tree written as one row per node, each parent before its children and children in order. The row's
index is the node's number. -/

namespace SourceBlocks

/-- A node in a table; the root has no parent. -/
structure NodeRow where
  parent : Option Nat
  kind : String
  field : Option String
  named : Bool
  start : Nat
  stop : Nat
  deriving Repr

/-- For each byte offset of a text its row and the offset at which that row starts. -/
structure RowIndex where
  entries : Array (Nat × Nat)

namespace RowIndex

def ofText (text : String) : RowIndex :=
  let (entries, row, lineStart) := text.toUTF8.toList.foldl
    (fun (entries, row, lineStart) b =>
      let entries : Array (Nat × Nat) := entries.push (row, lineStart)
      if b == 10 then (entries, row + 1, entries.size) else (entries, row, lineStart))
    (#[], 0, 0)
  ⟨entries.push (row, lineStart)⟩

def position (index : RowIndex) (offset : Nat) : Position :=
  let (row, lineStart) := index.entries.getD offset (index.entries.back?.getD (0, 0))
  ⟨offset, row, offset - lineStart⟩

end RowIndex

namespace Node

def ofRow (index : RowIndex) (id : Nat) (row : NodeRow) (children : List Node) : Node :=
  mk { id, kind := row.kind, field := row.field, named := row.named,
       start := index.position row.start, stop := index.position row.stop } children

/-- Puts the rows together, last row first, so that each node finds its children complete. -/
def ofRows? (text : String) (rows : List NodeRow) : Option Node :=
  let index := RowIndex.ofText text
  let pending : Array (List Node) := Array.replicate rows.length []
  let (root, _) := rows.zipIdx.foldr
    (fun (row, id) (root, pending) =>
      let node := ofRow index id row (pending.getD id [])
      match row.parent with
      | none => (some node, pending)
      | some p => (root, pending.modify p (node :: ·)))
    ((none : Option Node), pending)
  root

end Node

end SourceBlocks
