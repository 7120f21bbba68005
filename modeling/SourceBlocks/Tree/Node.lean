/-! # Parse trees

A node covers a range of its text and owns its children. Nodes are told apart by their number. -/

namespace SourceBlocks

/-- A place in a text: its byte offset, the newlines before it, and the bytes since the last one. -/
structure Position where
  byte : Nat
  row : Nat
  column : Nat
  deriving DecidableEq, Repr

/-- What a node is apart from its children. -/
structure NodeInfo where
  id : Nat
  kind : String
  field : Option String
  named : Bool
  start : Position
  stop : Position
  deriving Repr

inductive Node where
  | mk (info : NodeInfo) (children : List Node)

namespace Node

def info : Node → NodeInfo
  | mk i _ => i

def children : Node → List Node
  | mk _ cs => cs

def id (n : Node) : Nat := n.info.id

def kind (n : Node) : String := n.info.kind

def named (n : Node) : Bool := n.info.named

def start (n : Node) : Position := n.info.start

def stop (n : Node) : Position := n.info.stop

def child? (n : Node) (field : String) : Option Node :=
  n.children.find? (·.info.field == some field)

def firstNamed? (n : Node) : Option Node :=
  n.children.find? (·.named)

mutual

def size : Node → Nat
  | mk _ cs => sizeAll cs + 1

def sizeAll : List Node → Nat
  | [] => 0
  | n :: ns => size n + sizeAll ns

end

mutual

/-- The nodes of the subtree, each before its children. -/
def preorder : Node → List Node
  | mk i cs => mk i cs :: preorderAll cs

def preorderAll : List Node → List Node
  | [] => []
  | n :: ns => preorder n ++ preorderAll ns

end

theorem size_pos (n : Node) : 0 < n.size := by
  cases n; simp [size]

theorem size_le_sizeAll {n : Node} {ns : List Node} (h : n ∈ ns) : n.size ≤ sizeAll ns := by
  induction ns with
  | nil => simp at h
  | cons m ms ih =>
    simp only [sizeAll]
    rcases List.mem_cons.1 h with rfl | h
    · omega
    · have := ih h; omega

theorem size_lt_of_mem {n m : Node} (h : m ∈ n.children) : m.size < n.size := by
  cases n with
  | mk i cs =>
    have := size_le_sizeAll (show m ∈ cs from h)
    simp only [size]; omega

theorem child?_mem {n m : Node} {field : String} (h : n.child? field = some m) :
    m ∈ n.children := List.mem_of_find?_eq_some h

theorem firstNamed?_mem {n m : Node} (h : n.firstNamed? = some m) : m ∈ n.children :=
  List.mem_of_find?_eq_some h

end Node

end SourceBlocks
