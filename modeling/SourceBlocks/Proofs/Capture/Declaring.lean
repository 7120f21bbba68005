import SourceBlocks.Proofs.Capture.Bodies
import SourceBlocks.Proofs.Capture.Records

/-! # Patterns that declare

A pattern declares when it captures one body and, below it, names and nothing else. Every match of such
a pattern begins with the body, a named node, and its names stand inside that body. All patterns of the
catalogue declare, under capture names that are block types. -/

namespace SourceBlocks

/-- The node stands in the subtree of the other and is not its root. -/
def Node.Below (n m : Node) : Prop := ∃ c ∈ m.children, n ∈ c.preorder

namespace Pattern

mutual

/-- The pattern captures one body, and below it only names. -/
def declares : Pattern → Bool
  | mk _ _ children (some c) => c != nameCapture && (capturesAll children).all (· == nameCapture)
  | mk _ _ children none => declaresAmong children

/-- One of the patterns declares, and the others capture nothing. -/
def declaresAmong : List Pattern → Bool
  | [] => false
  | p :: ps =>
    (declares p && (capturesAll ps).isEmpty) || ((captures p).isEmpty && declaresAmong ps)

end

theorem eq_nil_of_matchesAt {p : Pattern} {n : Node} {r : Record} (hr : r ∈ p.matchesAt n)
    (hnone : p.captures.isEmpty = true) : r = [] := by
  have hnames := names_perm_of_matchesAt p n r hr
  rw [List.isEmpty_iff.1 hnone] at hnames
  exact List.map_eq_nil_iff.1 hnames.eq_nil

theorem eq_nil_of_matchesAmong {ps : List Pattern} {ns : List Node} {r : Record}
    (hr : r ∈ matchesAmong ps ns) (hnone : (capturesAll ps).isEmpty = true) : r = [] := by
  have hnames := names_perm_of_matchesAmong ps ns r hr
  rw [List.isEmpty_iff.1 hnone] at hnames
  exact List.map_eq_nil_iff.1 hnames.eq_nil

end Pattern

/-- A body, a named node of the subtree captured under one of the types, and names below it. -/
structure DeclaredIn (root : Node) (types : List String) (type : String) (body : Node)
    (names : Record) : Prop where
  type_mem : type ∈ types
  type_ne : type ≠ nameCapture
  named : body.named = true
  inside : body ∈ root.preorder
  below : ∀ e ∈ names, e.1 = nameCapture ∧ e.2.Below body

theorem DeclaredIn.mono {root m : Node} {types more : List String} {type : String} {body : Node}
    {names : Record} (h : DeclaredIn m types type body names)
    (hroot : ∀ n ∈ m.preorder, n ∈ root.preorder) (htypes : types ⊆ more) :
    DeclaredIn root more type body names :=
  { h with type_mem := htypes h.type_mem, inside := hroot _ h.inside }

namespace Pattern

mutual

/-- A match of a pattern that declares is a declaration of the node's subtree. -/
theorem declaredIn_of_matchesAt :
    ∀ (p : Pattern) (n : Node), p.declares = true → ∀ r ∈ p.matchesAt n,
      ∃ type body names, r = (type, body) :: names ∧ DeclaredIn n p.captures type body names
  | mk field test children (some c), n => by
    intro hdeclares r hr
    rw [declares, Bool.and_eq_true, bne_iff_ne] at hdeclares
    obtain ⟨hadmits, names, hnames, rfl⟩ := mem_matchesAt.1 hr
    refine ⟨c, n, names, rfl, ?_, hdeclares.1, ?_, n.self_mem_preorder, fun e he => ⟨?_, ?_⟩⟩
    · exact List.mem_append_right _ List.mem_cons_self
    · exact (Bool.and_eq_true .. ▸ hadmits).1
    · have hname : e.1 ∈ capturesAll children :=
        (names_perm_of_matchesAmong children n.children names hnames).mem_iff.1
          (List.mem_map_of_mem he)
      exact eq_of_beq (List.all_eq_true.1 hdeclares.2 _ hname)
    · exact mem_preorder_of_matchesAmong children n.children names hnames e he
  | mk field test children none, n => by
    intro hdeclares r hr
    rw [declares] at hdeclares
    obtain ⟨-, r, hbelow, rfl⟩ := mem_matchesAt.1 hr
    obtain ⟨c, hc, type, body, names, rfl, hdeclared⟩ :=
      declaredIn_of_matchesAmong children n.children hdeclares r hbelow
    refine ⟨type, body, names, rfl, hdeclared.mono (fun m hm => ?_) ?_⟩
    · exact Node.mem_preorder_of_child hc hm
    · exact List.subset_append_left _ _

theorem declaredIn_of_matchesAmong :
    ∀ (ps : List Pattern) (ns : List Node), declaresAmong ps = true → ∀ r ∈ matchesAmong ps ns,
      ∃ n ∈ ns, ∃ type body names, r = (type, body) :: names ∧
        DeclaredIn n (capturesAll ps) type body names
  | [], ns => by
    intro hdeclares
    simp [declaresAmong] at hdeclares
  | p :: ps, ns => by
    intro hdeclares r hr
    rw [declaresAmong, Bool.or_eq_true, Bool.and_eq_true, Bool.and_eq_true] at hdeclares
    obtain ⟨n, rest, hsplit, -, first, hfirst, others, hothers, rfl⟩ := mem_matchesAmong_cons.1 hr
    obtain ⟨hn, hrest⟩ := mem_of_mem_splits hsplit
    -- the one that declares gives the body and its names, the others add nothing to them
    rcases hdeclares with ⟨hown, hnone⟩ | ⟨hnone, hlater⟩
    · obtain ⟨type, body, names, rfl, hdeclared⟩ := declaredIn_of_matchesAt p n hown first hfirst
      rw [eq_nil_of_matchesAmong hothers hnone, List.append_nil]
      exact ⟨n, hn, type, body, names, rfl,
        hdeclared.mono (fun _ hm => hm) (List.subset_append_left _ _)⟩
    · obtain ⟨m, hm, type, body, names, rfl, hdeclared⟩ :=
        declaredIn_of_matchesAmong ps rest hlater others hothers
      rw [eq_nil_of_matchesAt hfirst hnone, List.nil_append]
      exact ⟨m, hrest m hm, type, body, names, rfl,
        hdeclared.mono (fun _ hm => hm) (List.subset_append_right _ _)⟩

end

theorem capturesAll_eq_flatMap (ps : List Pattern) : capturesAll ps = ps.flatMap captures := by
  induction ps with
  | nil => rfl
  | cons p ps ih => rw [capturesAll, ih, List.flatMap_cons]

end Pattern

theorem Query.captures_subset {q : Query} {p : Pattern} (hp : p ∈ q.patterns) :
    p.captures ⊆ q.captures := by
  intro c hc
  rw [Query.captures, List.mem_eraseDups, Pattern.capturesAll_eq_flatMap]
  exact List.mem_flatMap.2 ⟨p, hp, hc⟩

/-- A query of patterns that declare finds declarations. -/
theorem declaredIn_of_matchesIn {q : Query} (hdeclares : ∀ p ∈ q.patterns, p.declares = true)
    {root : Node} {r : Record} (hr : r ∈ matchesIn q.patterns root) :
    ∃ type body names, r = (type, body) :: names ∧ DeclaredIn root q.captures type body names := by
  obtain ⟨n, hn, p, hp, hr⟩ := mem_matchesIn.1 hr
  obtain ⟨type, body, names, rfl, hdeclared⟩ :=
    p.declaredIn_of_matchesAt n (hdeclares p hp) r hr
  exact ⟨type, body, names, rfl,
    hdeclared.mono (fun _ hm => Node.mem_preorder_trans hn hm) (Query.captures_subset hp)⟩

/-- The capture of a declaration has its type, its body and the first of its names. -/
theorem DeclaredIn.ofRecord?_eq {root body : Node} {types : List String} {type : String}
    {names : Record} (h : DeclaredIn root types type body names) :
    Capture.ofRecord? ((type, body) :: names) = some ⟨type, names.head?.map Prod.snd, body⟩ := by
  have hbody : ((type, body) :: names).find? (·.1 != nameCapture) = some (type, body) :=
    List.find?_cons_of_pos (by simpa using h.type_ne)
  have hall : names.filter (·.1 == nameCapture) = names :=
    List.filter_eq_self.2 fun e he => beq_iff_eq.2 (h.below e he).1
  have hname : ((type, body) :: names).find? (·.1 == nameCapture) = names.head? := by
    rw [List.find?_cons_of_neg (by simpa using h.type_ne), ← List.head?_filter, hall]
  rw [Capture.ofRecord?, hbody, hname]

/-! ## The catalogue -/

theorem captureType_of_mem {name : String} (h : name ∈ nameCapture :: captureTypes) :
    captureType name = name := by
  rw [captureType]
  rcases List.mem_cons.1 h with rfl | h
  · rfl
  · rw [List.contains_iff_mem.2 h, Bool.or_true]
    rfl

theorem typed_eq_self {r : Record} (h : ∀ e ∈ r, e.1 ∈ nameCapture :: captureTypes) :
    CaptureSet.typed r = r := by
  rw [CaptureSet.typed]
  refine (List.map_congr_left fun e he => ?_).trans (List.map_id r)
  show (captureType e.1, e.2) = e
  rw [captureType_of_mem (h e he)]

namespace Catalogue

/-- The pattern declares, and its captures are names and block types. -/
def Declares (p : Pattern) : Prop :=
  p.declares = true ∧ ∀ c ∈ p.captures, c ∈ nameCapture :: captureTypes

instance (p : Pattern) : Decidable (Declares p) :=
  inferInstanceAs (Decidable (_ ∧ _))

theorem declares_block (kind : String) {type : String} (h : type ∈ captureTypes) :
    Declares (block kind type) := by
  have hne : type ≠ nameCapture := fun heq => absurd (heq ▸ h) (by decide)
  refine ⟨by simp [block, Pattern.declares, Pattern.capturesAll, hne], fun c hc => ?_⟩
  obtain rfl : c = type := by simpa [block, Pattern.captures, Pattern.capturesAll] using hc
  exact List.mem_cons_of_mem _ h

theorem declares_of_primary (l : Language) : ∀ p ∈ (primary l).patterns, Declares p := by
  cases l <;> decide

theorem fallbackKinds_mem (l : Language) : ∀ k ∈ fallbackKinds l, k.2 ∈ captureTypes := by
  cases l <;> decide

variable {language : String} {q : Query}

theorem Lists.declares (h : Lists language q) : ∀ p ∈ q.patterns, Declares p := by
  obtain ⟨l, rfl | hpatterns⟩ := h.patterns_cases
  · exact declares_of_primary l
  · rw [hpatterns]
    intro p hp
    obtain ⟨⟨kind, type⟩, hkind, rfl⟩ := List.mem_map.1 hp
    exact declares_block kind (fallbackKinds_mem l _ hkind)

theorem Lists.captures_subset (h : Lists language q) :
    q.captures ⊆ nameCapture :: captureTypes := by
  intro c hc
  rw [Query.captures, List.mem_eraseDups, Pattern.capturesAll_eq_flatMap] at hc
  obtain ⟨p, hp, hc⟩ := List.mem_flatMap.1 hc
  exact (h.declares p hp).2 c hc

/-- What a query of the catalogue matches is a declaration, and its capture names are types as they
are. -/
theorem Lists.declaredIn (h : Lists language q) {root : Node} {r : Record}
    (hr : r ∈ matchesIn q.patterns root) :
    ∃ type body names, r = (type, body) :: names ∧ CaptureSet.typed r = r ∧
      DeclaredIn root q.captures type body names := by
  obtain ⟨type, body, names, rfl, hdeclared⟩ :=
    declaredIn_of_matchesIn (fun p hp => (h.declares p hp).1) hr
  refine ⟨type, body, names, rfl, typed_eq_self fun e he => ?_, hdeclared⟩
  rcases List.mem_cons.1 he with rfl | he
  · exact h.captures_subset hdeclared.type_mem
  · exact (hdeclared.below e he).1 ▸ List.mem_cons_self

end Catalogue

end SourceBlocks
