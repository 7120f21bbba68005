import SourceBlocks.Capture.Structural
import SourceBlocks.Proofs.Tree.Places
import SourceBlocks.Proofs.Tree.Turns

/-! # What the structural walk finds

The walk finds the nodes of declaration kinds down to its depth. Said by places: those and no others,
each at its place once, in the order of the places. -/

namespace SourceBlocks

namespace Capture

/-- A declaration that no query has named. -/
def ofDeclaration (n : Node) : Capture := ⟨blockTypeOfKind n.kind, none, n⟩

theorem filterMap_ofKind? (kinds : List String) (ns : List Node) :
    ns.filterMap (ofKind? kinds) = (ns.filter fun n => kinds.contains n.kind).map ofDeclaration := by
  rw [← List.filterMap_eq_map, List.filterMap_filter]
  rfl

end Capture

theorem structuralCaptures_eq (language : String) (root : Node) :
    structuralCaptures language root =
      ((root.preorderTo structuralDepth).filter fun n =>
        (structuralKindsOf language).contains n.kind).map Capture.ofDeclaration := by
  rw [structuralCaptures, Node.visited_eq_preorderTo, Capture.filterMap_ofKind?]

theorem mem_structuralCaptures {language : String} {root : Node} {c : Capture} :
    c ∈ structuralCaptures language root ↔
      ∃ n ∈ root.preorderTo structuralDepth,
        n.kind ∈ structuralKindsOf language ∧ Capture.ofDeclaration n = c := by
  simp [structuralCaptures_eq, and_assoc]

/-- In at most two turns for each node that it visits, the walk comes to its end. It has found the
nodes of declaration kinds at most seven levels below the root, in preorder and each with the block
type of its kind: one for each place of such a node, in the order of the places. -/
theorem structuralCaptures_by_places (language : String) (root : Node) :
    let kinds := structuralKindsOf language
    let captures := structuralCaptures language root
    (∀ more, Cursor.enter? structuralDepth (Capture.ofKind? kinds)
      (2 * (root.preorderTo structuralDepth).length + more) (.ofNode root) 0 [] = some captures) ∧
    captures = ((root.preorderTo structuralDepth).filter fun n => kinds.contains n.kind).map
      (fun n => ⟨blockTypeOfKind n.kind, none, n⟩) ∧
    ∃ places : List (List Nat), places.Pairwise (· < ·) ∧
      (∀ place, place ∈ places ↔
        place.length ≤ structuralDepth ∧ ∃ n, root.descend? place = some n ∧ n.kind ∈ kinds) ∧
      captures.map (some ·.body) = places.map root.descend? := by
  intro kinds captures
  refine ⟨fun more => ?_, structuralCaptures_eq language root, ?_⟩
  · rw [← Node.visited_eq_preorderTo]
    exact Cursor.enter?_eq_walk (.ofNode root) 0 (Nat.le_add_right _ more)
  · let declares (place : List Nat) : Bool := (root.descend? place).any (kinds.contains ·.kind)
    refine ⟨(root.placesTo structuralDepth).filter declares, ?_, fun place => ?_, ?_⟩
    · exact (Node.placesTo_sorted root structuralDepth).sublist List.filter_sublist
    · rw [List.mem_filter, Node.mem_placesTo, and_assoc]
      refine and_congr_right fun _ => ?_
      constructor
      · rintro ⟨⟨n, hn⟩, hkind⟩
        exact ⟨n, hn, by simpa [declares, hn] using hkind⟩
      · rintro ⟨n, hn, hkind⟩
        exact ⟨⟨n, hn⟩, by simpa [declares, hn] using hkind⟩
    · -- the places of the nodes that are kept are the places that are kept
      have hnodes : ((root.placesTo structuralDepth).filter declares).map root.descend? =
          ((root.preorderTo structuralDepth).filter fun n => kinds.contains n.kind).map some := by
        rw [show declares = (fun found => found.any (kinds.contains ·.kind)) ∘ root.descend? from rfl,
          ← List.filter_map, Node.map_descend?_placesTo, List.filter_map]
        rfl
      rw [hnodes, show captures = _ from structuralCaptures_eq language root, List.map_map]
      rfl

end SourceBlocks
