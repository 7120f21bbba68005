import SourceBlocks.Proofs.Text.Offsets
import SourceBlocks.Tree.Node

/-! # Trees over a text

A tree lies over a text when its positions are places of the text, children stay inside their parent
and siblings do not overlap. The nodes of such a tree start in the order in which a preorder lists
them. -/

namespace SourceBlocks

namespace Node

/-! ## Subtrees -/

/-- What holds of a node as soon as it holds of its children holds of all nodes. -/
theorem induct {P : Node → Prop} (h : ∀ i cs, (∀ c ∈ cs, P c) → P (mk i cs)) : ∀ n, P n
  | mk i cs => h i cs fun c _ => induct h c

theorem preorderAll_eq_flatMap (ns : List Node) : preorderAll ns = ns.flatMap preorder := by
  induction ns with
  | nil => rfl
  | cons n ns ih => rw [preorderAll, ih, List.flatMap_cons]

theorem preorder_mk (i : NodeInfo) (cs : List Node) :
    (mk i cs).preorder = mk i cs :: cs.flatMap preorder := by
  rw [preorder, preorderAll_eq_flatMap]

theorem self_mem_preorder (n : Node) : n ∈ n.preorder := by
  cases n
  simp [preorder_mk]

theorem mem_preorder_mk {i : NodeInfo} {cs : List Node} {n : Node} :
    n ∈ (mk i cs).preorder ↔ n = mk i cs ∨ ∃ c ∈ cs, n ∈ c.preorder := by
  rw [preorder_mk, List.mem_cons, List.mem_flatMap]

theorem mem_preorder_of_child {n c m : Node} (hc : c ∈ n.children) (hm : m ∈ c.preorder) :
    m ∈ n.preorder := by
  cases n with
  | mk i cs => exact mem_preorder_mk.2 (Or.inr ⟨c, hc, hm⟩)

theorem mem_preorder_trans {n m k : Node} (hm : m ∈ n.preorder) (hk : k ∈ m.preorder) :
    k ∈ n.preorder := by
  induction n using induct with
  | h i cs ih =>
    rcases mem_preorder_mk.1 hm with rfl | ⟨c, hc, hmc⟩
    · exact hk
    · exact mem_preorder_mk.2 (Or.inr ⟨c, hc, ih c hc hmc⟩)

end Node

/-! ## Places in a text -/

/-- A position is where its offset stands in the text, which is at a character boundary. -/
structure Position.IsIn (p : Position) (text : List Char) : Prop where
  boundary : (Text.charIndex? text p.byte).isSome
  row_eq : p.row = Text.newlinesBefore text p.byte
  column_eq : p.column = Text.columnAt text p.byte

instance (p : Position) (text : List Char) : Decidable (p.IsIn text) :=
  decidable_of_iff
    ((Text.charIndex? text p.byte).isSome ∧ p.row = Text.newlinesBefore text p.byte ∧
      p.column = Text.columnAt text p.byte)
    ⟨fun ⟨h₁, h₂, h₃⟩ => ⟨h₁, h₂, h₃⟩, fun ⟨h₁, h₂, h₃⟩ => ⟨h₁, h₂, h₃⟩⟩

namespace Node

/-- A node stands in a text with its children inside it, in order and apart from each other. -/
structure LiesIn (n : Node) (text : List Char) : Prop where
  start_isIn : n.start.IsIn text
  stop_isIn : n.stop.IsIn text
  start_le_stop : n.start.byte ≤ n.stop.byte
  inside : ∀ c ∈ n.children, n.start.byte ≤ c.start.byte ∧ c.stop.byte ≤ n.stop.byte
  apart : n.children.Pairwise fun a b => a.stop.byte ≤ b.start.byte

instance (n : Node) (text : List Char) : Decidable (n.LiesIn text) :=
  decidable_of_iff
    (n.start.IsIn text ∧ n.stop.IsIn text ∧ n.start.byte ≤ n.stop.byte ∧
      (∀ c ∈ n.children, n.start.byte ≤ c.start.byte ∧ c.stop.byte ≤ n.stop.byte) ∧
      n.children.Pairwise fun a b => a.stop.byte ≤ b.start.byte)
    ⟨fun ⟨h₁, h₂, h₃, h₄, h₅⟩ => ⟨h₁, h₂, h₃, h₄, h₅⟩,
      fun ⟨h₁, h₂, h₃, h₄, h₅⟩ => ⟨h₁, h₂, h₃, h₄, h₅⟩⟩

/-- The tree is one of the text: all of its nodes lie in it. -/
def LiesOver (root : Node) (text : String) : Prop := ∀ n ∈ root.preorder, n.LiesIn text.toList

instance (root : Node) (text : String) : Decidable (root.LiesOver text) :=
  inferInstanceAs (Decidable (∀ n ∈ root.preorder, n.LiesIn text.toList))

theorem LiesOver.child {i : NodeInfo} {cs : List Node} {text : String}
    (h : (mk i cs).LiesOver text) {c : Node} (hc : c ∈ cs) : c.LiesOver text :=
  fun _ hn => h _ (mem_preorder_of_child hc hn)

/-- The children of every node stay inside the bytes of the node. -/
def Nested (root : Node) : Prop :=
  ∀ n ∈ root.preorder, ∀ c ∈ n.children, n.start.byte ≤ c.start.byte ∧ c.stop.byte ≤ n.stop.byte

instance (root : Node) : Decidable root.Nested :=
  inferInstanceAs (Decidable (∀ n ∈ root.preorder, ∀ c ∈ n.children,
    n.start.byte ≤ c.start.byte ∧ c.stop.byte ≤ n.stop.byte))

theorem LiesOver.nested {root : Node} {text : String} (h : root.LiesOver text) : root.Nested :=
  fun n hn => (h n hn).inside

theorem Nested.subtree {root n : Node} (h : root.Nested) (hn : n ∈ root.preorder) : n.Nested :=
  fun m hm => h m (mem_preorder_trans hn hm)

/-- No node of a tree leaves the range of its root. -/
theorem Nested.bounds {root : Node} (h : root.Nested) :
    ∀ n ∈ root.preorder, root.start.byte ≤ n.start.byte ∧ n.stop.byte ≤ root.stop.byte := by
  induction root using induct with
  | h i cs ih =>
    intro n hn
    rcases mem_preorder_mk.1 hn with rfl | ⟨c, hc, hnc⟩
    · exact ⟨Nat.le_refl _, Nat.le_refl _⟩
    · have hin := h _ (self_mem_preorder _) c hc
      have hchild : c.Nested := h.subtree (mem_preorder_of_child hc (self_mem_preorder c))
      have hb := ih c hc hchild n hnc
      omega

/-- A preorder lists the nodes of a text by their start. -/
theorem LiesOver.preorder_sorted {root : Node} {text : String} (h : root.LiesOver text) :
    root.preorder.Pairwise fun a b => a.start.byte ≤ b.start.byte := by
  induction root using induct with
  | h i cs ih =>
    have hroot := h _ (self_mem_preorder _)
    rw [preorder_mk, List.pairwise_cons, List.pairwise_flatMap]
    refine ⟨?_, fun c hc => ih c hc (h.child hc), ?_⟩
    · intro n hn
      exact (h.nested.bounds n (preorder_mk i cs ▸ List.mem_cons_of_mem _ hn)).1
    · -- a node of one child stops before the next child starts
      refine (List.Pairwise.and_mem.1 hroot.apart).imp ?_
      intro a b ⟨ha, hb, hab⟩ x hx y hy
      have hxa := (h.child ha).nested.bounds x hx
      have hyb := (h.child hb).nested.bounds y hy
      have hx' := (h.child ha x hx).start_le_stop
      omega

end Node

end SourceBlocks
