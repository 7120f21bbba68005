import SourceBlocks.Tree.Node

/-! # Walking a tree

A cursor stands on a node and can move to its first child, its next sibling or its parent, never out
of the node it was made on. The walk visits a subtree down to a depth with these moves;
`Node.preorderTo` says the same by recursion. -/

namespace SourceBlocks

/-- A node with the siblings after it, and the nodes above it with theirs, nearest first. -/
structure Cursor where
  node : Node
  right : List Node
  above : List (Node × List Node)

namespace Cursor

def ofNode (n : Node) : Cursor := ⟨n, [], []⟩

def firstChild? (c : Cursor) : Option Cursor :=
  match c.node.children with
  | [] => none
  | n :: ns => some ⟨n, ns, (c.node, c.right) :: c.above⟩

def nextSibling? (c : Cursor) : Option Cursor :=
  match c.right with
  | [] => none
  | n :: ns => some ⟨n, ns, c.above⟩

def parent? (c : Cursor) : Option Cursor :=
  match c.above with
  | [] => none
  | (n, right) :: above => some ⟨n, right, above⟩

/-- Nodes right of the cursor and of the nodes above it. -/
def aside (right : List Node) (above : List (Node × List Node)) : Nat :=
  Node.sizeAll right + above.foldr (fun p n => Node.sizeAll p.2 + n) 0

/-- Nodes that a walk from here can still visit. -/
def pending (c : Cursor) : Nat := c.node.size + aside c.right c.above

/-- The next node that is not below the cursor: a sibling, or a sibling of the nearest node above
that has one. -/
def next? (c : Cursor) (depth : Nat) : Option (Cursor × Nat) :=
  go c.node c.right c.above depth
where
  go (node : Node) (right : List Node) (above : List (Node × List Node)) (depth : Nat) :
      Option (Cursor × Nat) :=
    match nextSibling? ⟨node, right, above⟩ with
    | some c => some (c, depth)
    | none =>
      if depth = 0 then none
      else match above with
        | [] => none
        | (n, right) :: above => go n right above (depth - 1)

theorem pending_firstChild? {c d : Cursor} (h : c.firstChild? = some d) :
    d.pending < c.pending := by
  obtain ⟨⟨i, cs⟩, right, above⟩ := c
  cases cs with
  | nil => simp [firstChild?, Node.children] at h
  | cons n ns =>
    simp only [firstChild?, Node.children, Option.some.injEq] at h
    subst h
    simp [pending, aside, Node.size, Node.sizeAll]
    omega

theorem pending_next? {c d : Cursor} {depth k : Nat} (h : c.next? depth = some (d, k)) :
    d.pending < c.pending := by
  have key : ∀ (above : List (Node × List Node)) (n : Node) (right : List Node) (depth : Nat),
      next?.go n right above depth = some (d, k) → d.pending ≤ aside right above := by
    intro above
    induction above with
    | nil =>
      intro n right depth h
      cases right with
      | nil => simp [next?.go, nextSibling?] at h
      | cons r rs =>
        simp only [next?.go, nextSibling?, Option.some.injEq, Prod.mk.injEq] at h
        obtain ⟨rfl, _⟩ := h
        simp [pending, aside, Node.sizeAll]
    | cons p above ih =>
      intro n right depth h
      cases right with
      | nil =>
        rw [next?.go] at h
        simp only [nextSibling?] at h
        split at h
        · simp at h
        · have := ih _ _ _ h
          simp only [aside, List.foldr_cons] at this ⊢
          omega
      | cons r rs =>
        rw [next?.go] at h
        simp only [nextSibling?, Option.some.injEq, Prod.mk.injEq] at h
        obtain ⟨rfl, _⟩ := h
        simp [pending, aside, Node.sizeAll]
        omega
  have := key _ _ _ _ h
  have := c.node.size_pos
  simp only [pending] at *
  omega

/-- The nodes visited from here, the cursor `depth` levels below where it was made; children are
entered only above `limit`. -/
def walk (limit : Nat) (c : Cursor) (depth : Nat) : List Node :=
  match _child : if depth < limit then c.firstChild? else none with
  | some child => c.node :: walk limit child (depth + 1)
  | none =>
    match _next : c.next? depth with
    | some (other, k) => c.node :: walk limit other k
    | none => [c.node]
termination_by c.pending
decreasing_by
  · split at _child
    · exact pending_firstChild? _child
    · simp at _child
  · exact pending_next? _next

end Cursor

namespace Node

def visited (limit : Nat) (root : Node) : List Node :=
  (Cursor.ofNode root).walk limit 0

mutual

/-- The nodes at most `limit` levels below the root of the subtree, each before its children. -/
def preorderTo : Nat → Node → List Node
  | limit, mk i cs => mk i cs :: (match limit with
    | 0 => []
    | k + 1 => preorderAllTo k cs)

def preorderAllTo : Nat → List Node → List Node
  | _, [] => []
  | limit, n :: ns => preorderTo limit n ++ preorderAllTo limit ns

end

end Node

end SourceBlocks
