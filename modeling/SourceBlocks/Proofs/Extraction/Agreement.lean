import SourceBlocks.Proofs.Block.Identifier
import SourceBlocks.Proofs.Extraction.Usable

/-! # The fallback query beside the primary query

The primary query captures a declaration with its name, the fallback query the declaration alone, whose
name is then looked up. Where a node has at most one child under each field, both come to the same
name, so the fallback query gives the blocks of its node kinds as the primary query gives them. -/

namespace SourceBlocks

/-! ## Names by field -/

/-- A node says plainly what it is called: no field is given twice, the fields that would be looked up
before the name are not there, and the name is not wrapped in declarators. -/
structure Node.DeclaresPlainly (n : Node) : Prop where
  fields : (n.children.filterMap (·.info.field)).Nodup
  impl : n.kind = "impl_item" → n.child? "name" = none
  specifier : n.kind = "class_specifier" → n.child? "declarator" = none
  bare : ∀ c ∈ n.children,
    c.info.field = some "name" ∨ (n.kind = "impl_item" ∧ c.info.field = some "type") →
      c.innerDeclarator? = none

instance (n : Node) : Decidable n.DeclaresPlainly :=
  decidable_of_iff
    ((n.children.filterMap (·.info.field)).Nodup ∧
      (n.kind = "impl_item" → n.child? "name" = none) ∧
      (n.kind = "class_specifier" → n.child? "declarator" = none) ∧
      ∀ c ∈ n.children,
        c.info.field = some "name" ∨ (n.kind = "impl_item" ∧ c.info.field = some "type") →
          c.innerDeclarator? = none)
    ⟨fun ⟨h₁, h₂, h₃, h₄⟩ => ⟨h₁, h₂, h₃, h₄⟩, fun ⟨h₁, h₂, h₃, h₄⟩ => ⟨h₁, h₂, h₃, h₄⟩⟩

namespace Node

/-- Among nodes of distinct fields, the first under a field is the only one. -/
theorem find?_field {c : Node} {field : String} (hfield : c.info.field = some field) :
    ∀ {cs : List Node}, (cs.filterMap (·.info.field)).Nodup → c ∈ cs →
      cs.find? (·.info.field == some field) = some c := by
  intro cs
  induction cs with
  | nil => intro _ hc; exact absurd hc List.not_mem_nil
  | cons first rest ih =>
    intro hnodup hc
    rcases List.mem_cons.1 hc with rfl | hrest
    · apply List.find?_cons_of_pos
      simp [hfield]
    · have hin : field ∈ rest.filterMap (·.info.field) := List.mem_filterMap.2 ⟨c, hrest, hfield⟩
      cases hfirst : first.info.field with
      | none =>
        simp only [List.filterMap_cons, hfirst] at hnodup
        rw [List.find?_cons_of_neg (by simp [hfirst])]
        exact ih hnodup hrest
      | some other =>
        simp only [List.filterMap_cons, hfirst] at hnodup
        obtain ⟨hnew, hnodup⟩ := List.nodup_cons.1 hnodup
        have hne : other ≠ field := fun heq => hnew (heq ▸ hin)
        rw [List.find?_cons_of_neg (by simp [hfirst, hne])]
        exact ih hnodup hrest

theorem DeclaresPlainly.child? {n c : Node} (h : n.DeclaresPlainly) (hc : c ∈ n.children)
    {field : String} (hfield : c.info.field = some field) : n.child? field = some c :=
  find?_field hfield h.fields hc

end Node

/-- In a node of the kind that declares plainly, the field is the first of the language's name fields
under which there is a child. -/
def leadsToName (language kind field : String) : Bool :=
  (field == "name" && (nameFieldOf language == "name" ||
    (nameFieldOf language == "declarator" && kind == "class_specifier"))) ||
  (field == "type" && nameFieldOf language == "name" && kind == "impl_item")

/-- The name that is looked up is the child under that field. -/
theorem Node.DeclaresPlainly.declaredName? {n c : Node} (h : n.DeclaresPlainly)
    (hc : c ∈ n.children) {language field : String} (hfield : c.info.field = some field)
    (hleads : leadsToName language n.kind field = true) : n.declaredName? language = some c := by
  have hchild := h.child? hc hfield
  simp only [leadsToName, Bool.or_eq_true, Bool.and_eq_true, beq_iff_eq] at hleads
  rw [Node.declaredName?_eq, nameFields]
  rcases hleads with ⟨rfl, hname | ⟨hdeclarator, hkind⟩⟩ | ⟨⟨rfl, hname⟩, hkind⟩
  · have hlast := Node.innermost_of_none (h.bare c hc (Or.inl hfield))
    simp [hname, hchild, hlast]
  · have hlast := Node.innermost_of_none (h.bare c hc (Or.inl hfield))
    simp [hdeclarator, h.specifier hkind, hchild, hlast]
  · have hlast := Node.innermost_of_none (h.bare c hc (Or.inr ⟨hkind, hfield⟩))
    simp [hname, h.impl hkind, hchild, hlast]

/-! ## The two queries of a language -/

namespace Catalogue

/-- Below a body of the kind there is no pattern, or one for the child that leads to its name. -/
def looksUpName (language kind : String) : List Pattern → Bool
  | [] => true
  | [.mk (some field) _ [] (some name)] => name == nameCapture && leadsToName language kind field
  | _ => false

/-- The pattern captures bodies of one kind. Where the fallback query has the kind, it is for the same
type, and the name is the one that would be looked up. -/
def agrees (language : String) (kinds : List (String × String)) : Pattern → Bool
  | .mk none (.oneOf [kind]) children (some type) =>
    kinds.all fun k => k.1 != kind || (k.2 == type && looksUpName language kind children)
  | _ => false

theorem agrees_of_primary (l : Language) (h : fallbackKinds l ≠ []) :
    ∀ p ∈ (primary l).patterns, agrees l.key (fallbackKinds l) p = true := by
  revert h
  cases l <;> decide

/-- What matches a pattern for a name alone is a child under its field. -/
theorem mem_matchesAmong_name {field : String} {test : KindTest} {ns : List Node} {r : Record}
    (hr : r ∈ Pattern.matchesAmong [.mk (some field) test [] (some nameCapture)] ns) :
    ∃ n ∈ ns, n.info.field = some field ∧ r = [(nameCapture, n)] := by
  obtain ⟨n, rest, hsplit, hhangs, first, hfirst, others, hothers, rfl⟩ :=
    Pattern.mem_matchesAmong_cons.1 hr
  obtain ⟨-, below, hbelow, rfl⟩ := Pattern.mem_matchesAt.1 hfirst
  obtain rfl := Pattern.mem_matchesAmong_nil.1 hbelow
  obtain rfl := Pattern.mem_matchesAmong_nil.1 hothers
  have hfield : n.info.field = some field := by simpa [Pattern.hangs, Pattern.field] using hhangs
  exact ⟨n, (mem_of_mem_splits hsplit).1, hfield, rfl⟩

theorem name_of_looksUpName {language kind : String} {children : List Pattern}
    (h : looksUpName language kind children = true) {ns : List Node} {r : Record}
    (hr : r ∈ Pattern.matchesAmong children ns) :
    ∀ name ∈ r.head?.map Prod.snd, name ∈ ns ∧
      ∃ field, name.info.field = some field ∧ leadsToName language kind field = true := by
  intro name hname
  unfold looksUpName at h
  split at h
  case h_1 =>
    obtain rfl := Pattern.mem_matchesAmong_nil.1 hr
    contradiction
  case h_2 field test capture =>
    rw [Bool.and_eq_true, beq_iff_eq] at h
    obtain ⟨rfl, hleads⟩ := h
    obtain ⟨n, hn, hfield, rfl⟩ := mem_matchesAmong_name hr
    obtain rfl := Option.some.inj hname
    exact ⟨hn, field, hfield, hleads⟩
  case h_3 => contradiction

variable {l : Language} {q : Query} {root : Node} {c : Capture}

theorem admits_oneOf_singleton {kind : String} {n : Node} :
    (KindTest.oneOf [kind]).admits n = true ↔ n.named = true ∧ n.kind = kind := by
  simp [KindTest.admits]

theorem mem_matchesAt_block {kind type : String} {n : Node} {r : Record} :
    r ∈ (block kind type).matchesAt n ↔ n.named = true ∧ n.kind = kind ∧ r = [(type, n)] := by
  rw [block, Pattern.mem_matchesAt, admits_oneOf_singleton]
  constructor
  · rintro ⟨⟨hnamed, hkind⟩, below, hbelow, rfl⟩
    obtain rfl := Pattern.mem_matchesAmong_nil.1 hbelow
    exact ⟨hnamed, hkind, rfl⟩
  · rintro ⟨hnamed, hkind, rfl⟩
    exact ⟨⟨hnamed, hkind⟩, [], Pattern.mem_matchesAmong_nil.2 rfl, rfl⟩

/-- The fallback query captures the named nodes of its kinds, each as the type of its kind. -/
theorem mem_captured_fallback (hq : fallback? l = some q) :
    c ∈ q.program.captured root ↔ c.body ∈ root.preorder ∧ c.body.named = true ∧
      (c.body.kind, c.type) ∈ fallbackKinds l ∧ c.name = none := by
  obtain ⟨-, hpatterns⟩ := fallback?_eq_some hq
  rw [(lists_fallback hq).mem_captured_iff, hpatterns]
  simp only [mem_matchesIn, List.mem_map]
  constructor
  · rintro ⟨names, ⟨n, hn, _, ⟨⟨kind, type⟩, hk, rfl⟩, hr⟩, hname⟩
    obtain ⟨hnamed, rfl, hr⟩ := mem_matchesAt_block.1 hr
    obtain ⟨hhead, rfl⟩ := List.cons.inj hr
    obtain ⟨rfl, rfl⟩ := Prod.mk.inj hhead
    exact ⟨hn, hnamed, hk, hname⟩
  · rintro ⟨hn, hnamed, hk, hname⟩
    exact ⟨[], ⟨c.body, hn, _, ⟨_, hk, rfl⟩, mem_matchesAt_block.2 ⟨hnamed, rfl, rfl⟩⟩, hname⟩

/-- A capture of the primary query, of a body whose kind the fallback query has too: it has the same
type there, and if it has a name, this is a child under the field that leads to the name. -/
theorem mem_captured_primary (hq : fallback? l = some q)
    (hc : c ∈ (primary l).program.captured root) {type : String}
    (hkind : (c.body.kind, type) ∈ fallbackKinds l) :
    type = c.type ∧ c.body ∈ root.preorder ∧ c.body.named = true ∧
      ∀ name ∈ c.name, name ∈ c.body.children ∧
        ∃ field, name.info.field = some field ∧ leadsToName l.key c.body.kind field = true := by
  obtain ⟨hne, -⟩ := fallback?_eq_some hq
  obtain ⟨names, hr, hname⟩ := (lists_primary l).mem_captured_iff.1 hc
  -- some pattern matched, and what the table says of it leaves the body and at most one name
  obtain ⟨n, hn, p, hp, hr⟩ := mem_matchesIn.1 hr
  have hagrees := agrees_of_primary l hne p hp
  unfold agrees at hagrees
  split at hagrees
  case h_2 => contradiction
  case h_1 kind children own =>
    obtain ⟨hadmits, below, hbelow, hsame⟩ := Pattern.mem_matchesAt.1 hr
    obtain ⟨hhead, rfl⟩ := List.cons.inj hsame
    obtain ⟨rfl, rfl⟩ := Prod.mk.inj hhead
    obtain ⟨hnamed, rfl⟩ := admits_oneOf_singleton.1 hadmits
    obtain ⟨rfl, hlooks⟩ : type = c.type ∧ looksUpName l.key c.body.kind children = true := by
      simpa using List.all_eq_true.1 hagrees _ hkind
    exact ⟨rfl, hn, hnamed, hname ▸ name_of_looksUpName hlooks hbelow⟩

end Catalogue

/-! ## Blocks -/

/-- Captures of one body, type and name give one block. -/
theorem Capture.block?_congr {c d : Capture} {language : String} (htype : c.type = d.type)
    (hbody : c.body = d.body)
    (hname : c.name.or (c.body.declaredName? language) =
      d.name.or (d.body.declaredName? language))
    (s : Settings) (file : SourceText) : c.block? s language file = d.block? s language file := by
  have hidentifier : c.identifier? language file.text = d.identifier? language file.text := by
    rw [identifier?, identifier?, hname]
  simp only [block?, hidentifier, htype, hbody]

/-- What both queries capture of a body that declares plainly gives one block. -/
theorem Catalogue.block?_eq_of_captured {l : Language} {q : Query} (hq : fallback? l = some q)
    {root : Node} {c d : Capture} (hc : c ∈ (primary l).program.captured root)
    (hd : d ∈ q.program.captured root) (hbody : d.body = c.body)
    (hplain : c.body.DeclaresPlainly) (s : Settings) (file : SourceText) :
    d.block? s l.key file = c.block? s l.key file := by
  obtain ⟨-, -, hkind, hnone⟩ := (mem_captured_fallback hq).1 hd
  rw [hbody] at hkind
  obtain ⟨htype, -, -, hname⟩ := mem_captured_primary hq hc hkind
  apply Capture.block?_congr htype hbody
  rw [hnone, Option.none_or, hbody]
  cases hcaptured : c.name with
  | none => rfl
  | some name =>
    obtain ⟨hchild, field, hfield, hleads⟩ := hname name hcaptured
    rw [hplain.declaredName? hchild hfield hleads]
    rfl

namespace Services

/-- In a tree whose nodes declare plainly, the blocks of the primary query are those of its captures,
and each that it builds of a body of a kind of the fallback query is among the blocks of that query:
this captures the body too, and whatever it captures of the body gives the same block. -/
theorem fallback_builds_alike (l : Language) {q : Query} (hq : Catalogue.fallback? l = some q)
    {root : Node} (hroot : ∀ n ∈ root.preorder, n.DeclaresPlainly) {env : Environment}
    (hcatalogue : env.compiler.TakesCatalogue) {s t : Services} (hs : s.Sound env.compiler)
    (ht : t.Sound env.compiler) (file : SourceText) :
    let first := (s.attempt env l.key file root .primaryQuery).1.blocks
    let second := (t.attempt env l.key file root .fallbackQuery).1.blocks
    let declared := (Catalogue.primary l).program.captured root
    let located := q.program.captured root
    (∀ b, b ∈ first ↔ ∃ c ∈ declared, c.block? env.settings l.key file = some b) ∧
    ∀ c ∈ declared, c.body.kind ∈ (Catalogue.fallbackKinds l).map Prod.fst →
      ∀ b, c.block? env.settings l.key file = some b →
        b ∈ second ∧ (∃ d ∈ located, d.body = c.body) ∧
        ∀ d ∈ located, d.body = c.body → d.block? env.settings l.key file = some b := by
  intro first second declared located
  have hfirst : first = (env.queryFinds l.key file root (Catalogue.primaryOf? l.key)).blocks :=
    congrArg Attempt.blocks (attempt_eq_finds hs l.key file root .primaryQuery)
  have hsecond : second = (env.queryFinds l.key file root (Catalogue.fallbackOf? l.key)).blocks :=
    congrArg Attempt.blocks (attempt_eq_finds ht l.key file root .fallbackQuery)
  refine ⟨fun b => ?_, fun c hc hkinds b hblock => ?_⟩
  · rw [hfirst, Environment.mem_queryFinds hcatalogue fun _ => Or.inl, Catalogue.primaryOf?_key]
    simp [declared]
  · obtain ⟨⟨kind, type⟩, hkind, rfl⟩ := List.mem_map.1 hkinds
    obtain ⟨rfl, hbody, hnamed, -⟩ := Catalogue.mem_captured_primary hq hc hkind
    have hlocated : (⟨c.type, none, c.body⟩ : Capture) ∈ located :=
      (Catalogue.mem_captured_fallback hq).2 ⟨hbody, hnamed, hkind, rfl⟩
    have hsame : ∀ d ∈ located, d.body = c.body → d.block? env.settings l.key file = some b := by
      intro d hd hdbody
      rw [Catalogue.block?_eq_of_captured hq hc hd hdbody (hroot _ hbody)]
      exact hblock
    refine ⟨?_, ⟨_, hlocated, rfl⟩, hsame⟩
    rw [hsecond, Environment.mem_queryFinds hcatalogue fun _ => Or.inr]
    exact ⟨q, (Catalogue.fallbackOf?_key l).trans hq, _, hlocated, hsame _ hlocated rfl⟩

/-- An implementation without members. -/
def implFile : SourceText := ⟨"src/lib.rs", "h", "impl S \x7b\x7d"⟩

def implTree : Node :=
  .mk ⟨0, "source_file", none, true, ⟨0, 0, 0⟩, ⟨9, 0, 9⟩⟩
    [.mk ⟨1, "impl_item", none, true, ⟨0, 0, 0⟩, ⟨9, 0, 9⟩⟩
      [.mk ⟨2, "impl", none, false, ⟨0, 0, 0⟩, ⟨4, 0, 4⟩⟩ [],
        .mk ⟨3, "type_identifier", some "type", true, ⟨5, 0, 5⟩, ⟨6, 0, 6⟩⟩ [],
        .mk ⟨4, "declaration_list", some "body", true, ⟨7, 0, 7⟩, ⟨9, 0, 9⟩⟩
          [.mk ⟨5, "\x7b", none, false, ⟨7, 0, 7⟩, ⟨8, 0, 8⟩⟩ [],
            .mk ⟨6, "\x7d", none, false, ⟨8, 0, 8⟩, ⟨9, 0, 9⟩⟩ []]]]

def implBlock : Block := ⟨"impl", "S", "src/lib.rs", "h", 1, 1, "impl S \x7b\x7d"⟩

/-- The implementation goes by its type, which the one query captures and the other looks up. -/
theorem fallback_builds_alike_impl :
    let env : Environment := ⟨{}, Catalogue.compiler, id⟩
    let s := Services.ofSettings {}
    let first := (s.attempt env Language.rust.key implFile implTree .primaryQuery).1.blocks
    let second := (s.attempt env Language.rust.key implFile implTree .fallbackQuery).1.blocks
    ((∀ n ∈ implTree.preorder, n.DeclaresPlainly) ∧ env.compiler.TakesCatalogue ∧
      s.Sound env.compiler) ∧ implBlock ∈ first ∧ implBlock ∈ second := by
  intro env s first second
  have hroot : ∀ n ∈ implTree.preorder, n.DeclaresPlainly := by decide +kernel
  have hs : s.Sound env.compiler := sound_ofSettings Catalogue.compiler {}
  have hkinds : ∀ c ∈ (Catalogue.primary .rust).program.captured implTree,
      c.body.kind ∈ (Catalogue.fallbackKinds .rust).map Prod.fst := by decide +kernel
  have hmem : implBlock ∈ first := by decide +kernel
  obtain ⟨hfirst, hsecond⟩ := fallback_builds_alike .rust rfl hroot
    Catalogue.compiler_takesCatalogue hs hs implFile
  obtain ⟨c, hc, hblock⟩ := (hfirst implBlock).1 hmem
  exact ⟨⟨hroot, Catalogue.compiler_takesCatalogue, hs⟩, hmem,
    (hsecond c hc (hkinds c hc) implBlock hblock).1⟩

end Services

end SourceBlocks
