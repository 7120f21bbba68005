import SourceBlocks.Proofs.Capture.Declaring
import SourceBlocks.Tree.Name

/-! # From a declaration to its name

A declaration carries its name under a field, inside any number of declarators. The loop that follows
these takes at most one turn for each node on the way, so it comes to an end on every tree, and where
it ends no declarator leads further down. -/

namespace SourceBlocks.Node

/-- Follows the declarators down from a node, one in each turn; `none` when the turns run out. -/
def follow? : (turns : Nat) → Node → Option Node
  | 0, _ => none
  | turns + 1, n =>
    match n.innerDeclarator? with
    | some m => follow? turns m
    | none => some n

theorem innermost_of_none {n : Node} (h : n.innerDeclarator? = none) : n.innermost = n := by
  rw [innermost]
  split
  case h_1 m hm =>
    rw [h] at hm
    contradiction
  case h_2 => rfl

theorem innermost_of_some {n m : Node} (h : n.innerDeclarator? = some m) :
    n.innermost = m.innermost := by
  rw [innermost]
  split
  case h_1 m' hm =>
    rw [h] at hm
    obtain rfl := Option.some.inj hm
    rfl
  case h_2 hnone =>
    rw [h] at hnone
    contradiction

/-- What holds of a node that no declarator follows, and of a node as soon as it holds of the next
declarator, holds of all nodes. -/
theorem declarator_induction {P : Node → Prop} (last : ∀ n, n.innerDeclarator? = none → P n)
    (inner : ∀ n m, n.innerDeclarator? = some m → P m → P n) (n : Node) : P n := by
  induction n using induct with
  | h i cs ih =>
    cases h : (mk i cs).innerDeclarator? with
    | none => exact last _ h
    | some m => exact inner _ m h (ih m (innerDeclarator?_mem h))

/-- As many turns as the tree has nodes are enough, and more of them change nothing. -/
theorem follow?_eq_innermost (n : Node) :
    ∀ {turns : Nat}, n.size ≤ turns → follow? turns n = some n.innermost := by
  induction n using declarator_induction with
  | last n hnone =>
    intro turns hturns
    have hpos := n.size_pos
    obtain ⟨more, rfl⟩ : ∃ more, turns = more + 1 := ⟨turns - 1, by omega⟩
    rw [follow?, hnone, innermost_of_none hnone]
  | inner n m hm ih =>
    intro turns hturns
    have hless := size_lt_of_mem (innerDeclarator?_mem hm)
    obtain ⟨more, rfl⟩ : ∃ more, turns = more + 1 := ⟨turns - 1, by omega⟩
    have hmore : m.size ≤ more := by omega
    rw [follow?, hm, innermost_of_some hm]
    exact ih hmore

theorem innermost_mem_preorder (n : Node) : n.innermost ∈ n.preorder := by
  induction n using declarator_induction with
  | last n hnone =>
    rw [innermost_of_none hnone]
    exact n.self_mem_preorder
  | inner n m hm ih =>
    rw [innermost_of_some hm]
    exact mem_preorder_of_child (innerDeclarator?_mem hm) ih

theorem innerDeclarator?_innermost (n : Node) : n.innermost.innerDeclarator? = none := by
  induction n using declarator_induction with
  | last n hnone => rwa [innermost_of_none hnone]
  | inner n m hm ih => rwa [innermost_of_some hm]

/-- The fields under which a declaration may carry its name, in the order in which they are tried. -/
def nameFields (language : String) : List String := [nameFieldOf language, "name", "type"]

theorem declaredName?_eq (language : String) (body : Node) :
    body.declaredName? language =
      ((nameFields language).findSome? body.child?).map innermost := by
  rw [declaredName?, nameFields]
  cases h : body.child? (nameFieldOf language) with
  | some n => simp [h]
  | none => cases h' : body.child? "name" <;> cases h'' : body.child? "type" <;> simp [h, h', h'']

/-- The name is the end of the declarators of a child of the declaration. -/
theorem exists_child_of_declaredName? {language : String} {body name : Node}
    (h : body.declaredName? language = some name) :
    ∃ field ∈ nameFields language, ∃ c, body.child? field = some c ∧ c.innermost = name := by
  rw [declaredName?_eq, Option.map_eq_some_iff] at h
  obtain ⟨c, hc, rfl⟩ := h
  obtain ⟨field, hfield, hchild⟩ := List.exists_of_findSome?_eq_some hc
  exact ⟨field, hfield, c, hchild, rfl⟩

theorem declaredName?_below {language : String} {body name : Node}
    (h : body.declaredName? language = some name) : name.Below body := by
  obtain ⟨_, -, c, hc, rfl⟩ := exists_child_of_declaredName? h
  exact ⟨c, child?_mem hc, c.innermost_mem_preorder⟩

/-- A node that stands below another stays inside its bytes. -/
theorem Nested.below {n body : Node} (h : body.Nested) (hn : n.Below body) :
    body.start.byte ≤ n.start.byte ∧ n.stop.byte ≤ body.stop.byte := by
  obtain ⟨c, hc, hnc⟩ := hn
  exact h.bounds n (mem_preorder_of_child hc hnc)

end SourceBlocks.Node
