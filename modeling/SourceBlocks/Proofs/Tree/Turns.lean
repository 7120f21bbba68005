import SourceBlocks.Proofs.Tree.Visit

/-! # The walk in turns

The same walk as two loops that call each other: one arrives at a node and looks for a child, the
other leaves a subtree and looks for a sibling, else climbs. A turn makes at most one move of the
cursor, and turns run out. The walk needs at most two turns for each node that it visits, so that it
comes to an end on every tree. -/

namespace SourceBlocks.Cursor

variable {α : Type}

mutual

/-- Arrives at a node, which is picked or passed over. -/
def enter? (limit : Nat) (pick : Node → Option α) :
    (turns : Nat) → Cursor → (depth : Nat) → (found : List α) → Option (List α)
  | 0, _, _, _ => none
  | turns + 1, c, depth, found =>
    match if depth < limit then c.firstChild? else none with
    | some child => enter? limit pick turns child (depth + 1) (found ++ (pick c.node).toList)
    | none => leave? limit pick turns c depth (found ++ (pick c.node).toList)

/-- Leaves a node, with all that is below it. -/
def leave? (limit : Nat) (pick : Node → Option α) :
    (turns : Nat) → Cursor → (depth : Nat) → (found : List α) → Option (List α)
  | 0, _, _, _ => none
  | turns + 1, c, depth, found =>
    match c.nextSibling? with
    | some sibling => enter? limit pick turns sibling depth found
    | none =>
      if depth = 0 then some found
      else match c.parent? with
        | some parent => leave? limit pick turns parent (depth - 1) found
        | none => some found

end

variable {limit : Nat} {pick : Node → Option α}

/-- Leaving a node takes a turn for each level that is climbed, and one more. -/
theorem leave?_of_next? {node : Node} {right : List Node} {above : List (Node × List Node)}
    {depth k : Nat} {c : Cursor} (h : next?.go node right above depth = some (c, k)) :
    ∃ moves, moves + k = depth + 1 ∧ ∀ turns found,
      leave? limit pick (turns + moves) ⟨node, right, above⟩ depth found =
        enter? limit pick turns c k found := by
  fun_induction next?.go node right above depth with
  | case1 above node right depth sibling hsibling =>
    obtain ⟨rfl, rfl⟩ : sibling = c ∧ depth = k := by simpa using h
    exact ⟨1, Nat.add_comm 1 depth, fun turns found => by rw [leave?, hsibling]⟩
  | case2 => simp at h
  | case3 => simp at h
  | case4 node right depth hdepth n right' above hnone ih =>
    obtain ⟨moves, hmoves, hrun⟩ := ih h
    refine ⟨moves + 1, by omega, fun turns found => ?_⟩
    rw [← hrun turns found, ← Nat.add_assoc, leave?, hnone, if_neg hdepth]
    rfl

theorem leave?_of_next?_none {node : Node} {right : List Node} {above : List (Node × List Node)}
    {depth turns : Nat} {found : List α} (h : next?.go node right above depth = none)
    (hturns : depth < turns) :
    leave? limit pick turns ⟨node, right, above⟩ depth found = some found := by
  fun_induction next?.go node right above depth generalizing turns with
  | case1 => simp at h
  | case2 above node right hnone =>
    obtain ⟨turns, rfl⟩ := Nat.exists_eq_add_one.2 (show 0 < turns by omega)
    rw [leave?, hnone, if_pos rfl]
  | case3 node right depth hdepth hnone =>
    obtain ⟨turns, rfl⟩ := Nat.exists_eq_add_one.2 (show 0 < turns by omega)
    rw [leave?, hnone, if_neg hdepth]
    rfl
  | case4 node right depth hdepth n right' above hnone ih =>
    obtain ⟨turns, rfl⟩ := Nat.exists_eq_add_one.2 (show 0 < turns by omega)
    rw [leave?, hnone, if_neg hdepth]
    exact ih h (by omega)

/-- Two turns for each node that is still to be visited and one for each level above are enough. -/
theorem enter?_eq_walk (c : Cursor) (depth : Nat) :
    ∀ {turns : Nat} {found : List α}, 2 * (c.walk limit depth).length + depth ≤ turns →
      enter? limit pick turns c depth found =
        some (found ++ (c.walk limit depth).filterMap pick) := by
  have hpicked : ∀ (n : Node) (found : List α) (rest : List Node),
      found ++ (pick n).toList ++ rest.filterMap pick = found ++ (n :: rest).filterMap pick := by
    intro n found rest
    cases hn : pick n <;> simp [hn]
  fun_induction walk limit c depth with
  | case1 c depth child hchild ih =>
    intro turns found hturns
    rw [List.length_cons] at hturns
    obtain ⟨turns, rfl⟩ := Nat.exists_eq_add_one.2 (show 0 < turns by omega)
    rw [dite_eq_ite] at hchild
    rw [enter?, hchild, ← hpicked]
    exact ih (by omega)
  | case2 c depth hchild other k hnext ih =>
    intro turns found hturns
    rw [List.length_cons] at hturns
    obtain ⟨moves, hmoves, hrun⟩ := @leave?_of_next? α limit pick _ _ _ _ _ _ hnext
    obtain ⟨turns, rfl⟩ : ∃ t, turns = t + moves + 1 := ⟨turns - moves - 1, by omega⟩
    rw [dite_eq_ite] at hchild
    rw [enter?, hchild, ← hpicked]
    exact (hrun turns _).trans (ih (by omega))
  | case3 c depth hchild hnext =>
    intro turns found hturns
    rw [List.length_singleton] at hturns
    obtain ⟨turns, rfl⟩ := Nat.exists_eq_add_one.2 (show 0 < turns by omega)
    rw [dite_eq_ite] at hchild
    rw [enter?, hchild, ← hpicked, List.filterMap_nil, List.append_nil]
    exact leave?_of_next?_none hnext (by omega)

end SourceBlocks.Cursor
