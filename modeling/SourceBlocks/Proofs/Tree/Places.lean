import Mathlib.Data.List.Lex
import SourceBlocks.Proofs.Tree.Order
import SourceBlocks.Tree.Walk

/-! # Nodes by their place

The place of a node is the list of child numbers on the way down from the root; its length is how far
the node lies below the root. A node of a tree may be equal to another one, its place never is. In
the order of words a place comes before all places below it, and these come before the places right of
it, so that a preorder lists the nodes by their places. -/

namespace SourceBlocks.Node

/-- The node that is reached by taking the child of each number in turn. -/
def descend? : Node → List Nat → Option Node
  | n, [] => some n
  | n, i :: place => (n.children[i]?).bind (·.descend? place)

theorem descend?_cons {i : NodeInfo} {cs : List Node} {j : Nat} {below : List Nat} {n : Node} :
    (mk i cs).descend? (j :: below) = some n ↔
      ∃ c, cs[j]? = some c ∧ c.descend? below = some n := by
  rw [descend?, Option.bind_eq_some_iff, children]

mutual

/-- The places of all nodes at most `limit` levels below the root, in order. -/
def placesTo : Nat → Node → List (List Nat)
  | limit, mk _ cs => [] :: (match limit with
    | 0 => []
    | k + 1 => placesAllTo k 0 cs)

/-- The places below siblings of which the first is the child of number `i`. -/
def placesAllTo : Nat → Nat → List Node → List (List Nat)
  | _, _, [] => []
  | limit, i, n :: ns => (placesTo limit n).map (i :: ·) ++ placesAllTo limit (i + 1) ns

end

theorem mem_placesAllTo {limit : Nat} {ns : List Node} {place : List Nat} :
    ∀ {i : Nat}, place ∈ placesAllTo limit i ns ↔
      ∃ j n below, ns[j]? = some n ∧ below ∈ placesTo limit n ∧ place = (i + j) :: below := by
  induction ns with
  | nil => simp [placesAllTo]
  | cons m ms ih =>
    intro i
    rw [placesAllTo, List.mem_append, List.mem_map, ih]
    constructor
    · rintro (⟨below, hbelow, rfl⟩ | ⟨j, n, below, hn, hbelow, rfl⟩)
      · exact ⟨0, m, below, rfl, hbelow, rfl⟩
      · exact ⟨j + 1, n, below, hn, hbelow, by rw [Nat.add_right_comm, Nat.add_assoc]⟩
    · rintro ⟨j, n, below, hn, hbelow, rfl⟩
      cases j with
      | zero =>
        obtain rfl : m = n := by simpa using hn
        exact Or.inl ⟨below, hbelow, rfl⟩
      | succ j =>
        exact Or.inr ⟨j, n, below, hn, hbelow, by rw [Nat.add_right_comm, Nat.add_assoc]⟩

/-- A place is listed when there is a node at it and it is not too long. -/
theorem mem_placesTo {root : Node} :
    ∀ {limit : Nat} {place : List Nat},
      place ∈ placesTo limit root ↔ place.length ≤ limit ∧ ∃ n, root.descend? place = some n := by
  induction root using induct with
  | h i cs ih =>
    intro limit place
    cases place with
    | nil => cases limit <;> simp [placesTo, descend?]
    | cons j below =>
      cases limit with
      | zero => simp [placesTo]
      | succ k =>
        simp only [placesTo, List.mem_cons, reduceCtorEq, false_or, mem_placesAllTo, descend?_cons,
          List.length_cons, Nat.add_le_add_iff_right]
        constructor
        · rintro ⟨j', c, below', hc, hbelow, hplace⟩
          obtain ⟨rfl, rfl⟩ : j = j' ∧ below = below' := by simpa using hplace
          obtain ⟨hlength, n, hn⟩ := (ih c (List.mem_of_getElem? hc)).1 hbelow
          exact ⟨hlength, n, c, hc, hn⟩
        · rintro ⟨hlength, n, c, hc, hn⟩
          have hbelow := (ih c (List.mem_of_getElem? hc)).2 ⟨hlength, n, hn⟩
          exact ⟨j, c, below, hc, hbelow, by rw [Nat.zero_add]⟩

theorem placesAllTo_sorted {limit : Nat} {ns : List Node}
    (h : ∀ n ∈ ns, (placesTo limit n).Pairwise (· < ·)) :
    ∀ i, (placesAllTo limit i ns).Pairwise (· < ·) := by
  induction ns with
  | nil => simp [placesAllTo]
  | cons m ms ih =>
    intro i
    rw [placesAllTo, List.pairwise_append, List.pairwise_map]
    refine ⟨?_, ih (fun n hn => h n (List.mem_cons_of_mem _ hn)) (i + 1), ?_⟩
    · exact (h m List.mem_cons_self).imp fun hlt => List.cons_lt_cons_iff.2 (Or.inr ⟨rfl, hlt⟩)
    · intro p hp q hq
      obtain ⟨below, -, rfl⟩ := List.mem_map.1 hp
      obtain ⟨j, n, below', -, -, rfl⟩ := mem_placesAllTo.1 hq
      exact List.cons_lt_cons_iff.2 (Or.inl (by omega))

/-- Places are listed in order, so each of them once. -/
theorem placesTo_sorted (n : Node) : ∀ limit, (placesTo limit n).Pairwise (· < ·) := by
  induction n using induct with
  | h i cs ih =>
    intro limit
    cases limit with
    | zero => simp [placesTo]
    | succ k =>
      rw [placesTo, List.pairwise_cons]
      refine ⟨?_, placesAllTo_sorted (fun c hc => ih c hc k) 0⟩
      intro place hplace
      obtain ⟨j, n, below, -, -, rfl⟩ := mem_placesAllTo.1 hplace
      exact List.nil_lt_cons _ _

/-- The siblings from the child of number `j` on. -/
theorem map_descend?_placesAllTo {i : NodeInfo} {cs : List Node} {limit : Nat}
    (h : ∀ c ∈ cs, (placesTo limit c).map c.descend? = (preorderTo limit c).map some)
    {ns : List Node} : ∀ {j : Nat}, cs.drop j = ns →
      (placesAllTo limit j ns).map (mk i cs).descend? = (preorderAllTo limit ns).map some := by
  induction ns with
  | nil => simp [placesAllTo, preorderAllTo]
  | cons m ms ih =>
    intro j hdrop
    have hm : cs[j]? = some m := by
      rw [← List.head?_drop, hdrop, List.head?_cons]
    have hms : cs.drop (j + 1) = ms := by
      rw [← List.drop_drop, hdrop, List.drop_one, List.tail_cons]
    have hfirst : ((placesTo limit m).map (j :: ·)).map (mk i cs).descend? =
        (preorderTo limit m).map some := by
      rw [← h m (List.mem_of_getElem? hm), List.map_map]
      refine List.map_congr_left fun below _ => ?_
      simp [descend?, children, hm]
    rw [placesAllTo, preorderAllTo, List.map_append, List.map_append, hfirst, ih hms]

/-- The nodes at the places are those of the bounded preorder. -/
theorem map_descend?_placesTo (root : Node) :
    ∀ limit, (placesTo limit root).map root.descend? = (root.preorderTo limit).map some := by
  induction root using induct with
  | h i cs ih =>
    intro limit
    cases limit with
    | zero => simp [placesTo, preorderTo, descend?]
    | succ k =>
      have hbelow := map_descend?_placesAllTo (i := i) (fun c hc => ih c hc k) List.drop_zero
      rw [placesTo, preorderTo, List.map_cons, List.map_cons, hbelow, descend?]

end SourceBlocks.Node
