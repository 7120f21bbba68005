import SourceBlocks.Proofs.Tree.Order
import SourceBlocks.Tree.Walk

/-! # The walk is a bounded preorder

A cursor that enters children, moves to siblings and climbs back visits what the recursion down to
the same depth lists, and so a part of the whole preorder in its order. -/

namespace SourceBlocks

namespace Node

theorem preorderAllTo_eq_flatMap (limit : Nat) (ns : List Node) :
    preorderAllTo limit ns = ns.flatMap (preorderTo limit) := by
  induction ns with
  | nil => rfl
  | cons n ns ih => rw [preorderAllTo, ih, List.flatMap_cons]

theorem preorderTo_sublist (limit : Nat) (n : Node) : (n.preorderTo limit).Sublist n.preorder := by
  induction n using induct generalizing limit with
  | h i cs ih =>
    rw [preorder_mk]
    cases limit with
    | zero =>
      rw [preorderTo]
      exact (List.nil_sublist _).cons_cons _
    | succ k =>
      rw [preorderTo, preorderAllTo_eq_flatMap]
      refine List.Sublist.cons_cons _ ?_
      clear i
      induction cs with
      | nil => exact List.Sublist.refl _
      | cons c cs ihcs =>
        rw [List.flatMap_cons, List.flatMap_cons]
        exact (ih c List.mem_cons_self k).append
          (ihcs fun d hd => ih d (List.mem_cons_of_mem _ hd))

end Node

namespace Cursor

/-- What a walk lists once it has left the node it stands on: the siblings on the right, then those of
each node above up to where the cursor was made. -/
def remaining (limit : Nat) (right : List Node) : List (Node × List Node) → Nat → List Node
  | (_, r) :: above, depth + 1 =>
    Node.preorderAllTo (limit - (depth + 1)) right ++ remaining limit r above depth
  | _, depth => Node.preorderAllTo (limit - depth) right

/-- The next node opens what remains; without one nothing remains. -/
theorem remaining_eq_of_next? (limit : Nat) (above : List (Node × List Node)) :
    ∀ (node : Node) (right : List Node) (depth : Nat),
      remaining limit right above depth =
        match next?.go node right above depth with
        | some (c, k) => c.node.preorderTo (limit - k) ++ remaining limit c.right c.above k
        | none => [] := by
  induction above with
  | nil =>
    intro node right depth
    cases right with
    | nil => cases depth <;> simp [remaining, next?.go, nextSibling?, Node.preorderAllTo]
    | cons r rs => cases depth <;> simp [remaining, next?.go, nextSibling?, Node.preorderAllTo]
  | cons p above ih =>
    intro node right depth
    obtain ⟨m, r⟩ := p
    cases right with
    | cons s rs =>
      cases depth <;> simp [remaining, next?.go, nextSibling?, Node.preorderAllTo]
    | nil =>
      cases depth with
      | zero => simp [remaining, next?.go, nextSibling?, Node.preorderAllTo]
      | succ depth =>
        rw [remaining, Node.preorderAllTo, List.nil_append, ih m r depth]
        simp [next?.go, nextSibling?]

/-- A walk lists the subtree of its node down to the limit, then what remains. -/
theorem walk_eq (limit : Nat) (c : Cursor) (depth : Nat) :
    c.walk limit depth =
      c.node.preorderTo (limit - depth) ++ remaining limit c.right c.above depth := by
  induction hp : c.pending using Nat.strongRecOn generalizing c depth with
  | ind n ih =>
    subst hp
    obtain ⟨⟨i, cs⟩, right, above⟩ := c
    rw [walk]
    split
    · next child hchild =>
      split at hchild
      case isFalse => simp at hchild
      case isTrue hdepth =>
        rw [ih _ (pending_firstChild? hchild) child (depth + 1) rfl]
        cases cs with
        | nil => simp [firstChild?, Node.children] at hchild
        | cons d ds =>
          obtain rfl : _ = child := by simpa [firstChild?, Node.children] using hchild
          obtain ⟨k, hk⟩ : ∃ k, limit - depth = k + 1 := ⟨limit - depth - 1, by omega⟩
          have hk' : limit - (depth + 1) = k := by omega
          simp [hk, hk', Node.preorderTo, Node.preorderAllTo, remaining]
    · next hchild =>
      -- no child is entered: the subtree down to the limit is the node alone
      have halone : (Node.mk i cs).preorderTo (limit - depth) = [.mk i cs] := by
        cases hk : limit - depth with
        | zero => simp [Node.preorderTo]
        | succ k =>
          have hdepth : depth < limit := by omega
          rw [if_pos hdepth] at hchild
          cases cs with
          | nil => simp [Node.preorderTo, Node.preorderAllTo]
          | cons d ds => simp [firstChild?, Node.children] at hchild
      have hrest := remaining_eq_of_next? limit above (.mk i cs) right depth
      split
      · next other k hnext =>
        rw [ih _ (pending_next? hnext) other k rfl, halone, hrest]
        rw [next?] at hnext
        simp [hnext]
      · next hnext =>
        rw [halone, hrest]
        rw [next?] at hnext
        simp [hnext]

end Cursor

namespace Node

theorem visited_eq_preorderTo (limit : Nat) (root : Node) :
    root.visited limit = root.preorderTo limit := by
  rw [visited, Cursor.walk_eq, Cursor.ofNode, Cursor.remaining, preorderAllTo]
  · simp
  · simp

theorem visited_sublist (limit : Nat) (root : Node) : (root.visited limit).Sublist root.preorder :=
  visited_eq_preorderTo limit root ▸ preorderTo_sublist limit root

end Node

end SourceBlocks
