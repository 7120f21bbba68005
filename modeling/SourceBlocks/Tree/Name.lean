import SourceBlocks.Tree.Node
import SourceBlocks.Language.Kinds

/-! # Names of declarations

Where a declaration's identifier stands in its subtree. -/

namespace SourceBlocks

namespace Node

/-- The declarator directly inside a node; a reference carries it as its first named child. -/
def innerDeclarator? (n : Node) : Option Node :=
  if n.kind = "reference_declarator" then n.firstNamed? else n.child? "declarator"

theorem innerDeclarator?_mem {n m : Node} (h : n.innerDeclarator? = some m) :
    m ∈ n.children := by
  unfold innerDeclarator? at h
  split at h
  · exact firstNamed?_mem h
  · exact child?_mem h

def innermost (n : Node) : Node :=
  match _inner : n.innerDeclarator? with
  | some m => innermost m
  | none => n
termination_by n.size
decreasing_by exact size_lt_of_mem (innerDeclarator?_mem _inner)

/-- The name of a declaration in the language: under its name field, else under `name`, else under
`type`, and from there through all declarators. -/
def declaredName? (language : String) (body : Node) : Option Node :=
  ((body.child? (nameFieldOf language)).or
    ((body.child? "name").or (body.child? "type"))).map innermost

end Node

end SourceBlocks
