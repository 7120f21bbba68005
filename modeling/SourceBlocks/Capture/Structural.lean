import SourceBlocks.Capture.Basic
import SourceBlocks.Language.Kinds
import SourceBlocks.Tree.Walk

/-! # Captures without a query

Nodes of a language's declaration kinds, found by walking the tree down to a fixed depth. -/

namespace SourceBlocks

/-- The deepest level below the root that is walked. -/
def structuralDepth : Nat := 7

def Capture.ofKind? (kinds : List String) (n : Node) : Option Capture :=
  if kinds.contains n.kind then some ⟨blockTypeOfKind n.kind, none, n⟩ else none

/-- The declarations of a subtree in document order. -/
def structuralCaptures (language : String) (root : Node) : List Capture :=
  (root.visited structuralDepth).filterMap (Capture.ofKind? (structuralKindsOf language))

end SourceBlocks
