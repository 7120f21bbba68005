import SourceBlocks.Extraction.Basic
import SourceBlocks.Proofs.Capture.Declarations

/-! # Tokens taken for declarations

A token of a grammar stands in a tree as an anonymous node with its own text as its kind. The walk asks
for the kind alone, so it captures a token whose text is a declaration kind. Which tokens a grammar has
is left open here; among the declaration kinds few are plain words, and in Ruby the words `class` and
`module` are keywords as well. -/

namespace SourceBlocks

/-- All anonymous nodes of the tree are tokens with these texts. -/
def Node.TokensAmong (root : Node) (tokens : List String) : Prop :=
  ∀ n ∈ root.preorder, n.named = false → n.kind ∈ tokens

instance (root : Node) (tokens : List String) : Decidable (root.TokensAmong tokens) :=
  inferInstanceAs (Decidable (∀ n ∈ root.preorder, n.named = false → n.kind ∈ tokens))

/-- The declaration kinds that are single words, with the languages whose kinds they are. -/
def wordKinds : List (String × String) :=
  [("ruby", "method"), ("ruby", "class"), ("ruby", "module"), ("json", "pair"),
    ("html", "element"), ("toml", "table")]

theorem underscore_or_mem_wordKinds {language kind : String}
    (h : kind ∈ structuralKindsOf language) :
    '_' ∈ kind.toList ∨ (language, kind) ∈ wordKinds := by
  rw [structuralKindsOf] at h
  cases hl : Language.ofKey? language with
  | none =>
    rw [hl] at h
    have hgeneric : ∀ kind ∈ genericKinds, '_' ∈ kind.toList := by decide
    exact Or.inl (hgeneric kind h)
  | some l =>
    rw [hl] at h
    obtain rfl := Language.key_of_ofKey? hl
    have htable : ∀ kind ∈ l.structuralKinds, '_' ∈ kind.toList ∨ (l.key, kind) ∈ wordKinds := by
      cases l <;> decide
    exact htable kind h

/-- The captures are named nodes unless an anonymous node that is visited has a declaration kind. -/
theorem structuralCaptures_named_iff_tree (language : String) (root : Node) :
    (∀ c ∈ structuralCaptures language root, c.body.named = true) ↔
      ∀ n ∈ root.preorderTo structuralDepth, n.named = false →
        n.kind ∉ structuralKindsOf language := by
  constructor
  · intro hnamed n hn hanonymous hkind
    have hbody : n.named = true := hnamed _ (mem_structuralCaptures.2 ⟨n, hn, hkind, rfl⟩)
    rw [hanonymous] at hbody
    contradiction
  · intro htokens c hc
    obtain ⟨n, hn, hkind, rfl⟩ := mem_structuralCaptures.1 hc
    cases hnamed : n.named with
    | true => exact hnamed
    | false => exact absurd hkind (htokens n hn hnamed)

/-- A tree that is a token and nothing else. -/
def tokenTree (token : String) : Node :=
  .mk ⟨0, token, none, false, ⟨0, 0, 0⟩, ⟨token.utf8ByteSize, 0, token.utf8ByteSize⟩⟩ []

theorem tokensAmong_tokenTree {token : String} {tokens : List String} (h : token ∈ tokens) :
    (tokenTree token).TokensAmong tokens := by
  intro n hn _
  obtain rfl : n = tokenTree token := by simpa [tokenTree, Node.preorder, Node.preorderAll] using hn
  exact h

/-- In every tree the captures are named nodes unless one that is visited is a token with a declaration
kind as its text; in all trees of a grammar, just when no token of the grammar has such a text. A
token without an underscore has one only in Ruby (`method`, `class` and `module`), JSON (`pair`), HTML
(`element`) and TOML (`table`). -/
theorem structuralCaptures_named_iff (language : String) (tokens : List String) :
    (∀ root : Node, (∀ c ∈ structuralCaptures language root, c.body.named = true) ↔
      ∀ n ∈ root.preorderTo structuralDepth, n.named = false →
        n.kind ∉ structuralKindsOf language) ∧
    ((∀ root : Node, root.TokensAmong tokens →
        ∀ c ∈ structuralCaptures language root, c.body.named = true) ↔
      ∀ token ∈ tokens, token ∉ structuralKindsOf language) ∧
    ∀ kind ∈ structuralKindsOf language, '_' ∈ kind.toList ∨ (language, kind) ∈ wordKinds := by
  refine ⟨structuralCaptures_named_iff_tree language, ⟨?_, ?_⟩,
    fun _ => underscore_or_mem_wordKinds⟩
  · intro hnamed token htoken
    have hvisited : tokenTree token ∈ (tokenTree token).preorderTo structuralDepth := by
      simp [tokenTree, Node.preorderTo, structuralDepth]
    exact (structuralCaptures_named_iff_tree language (tokenTree token)).1
      (hnamed _ (tokensAmong_tokenTree htoken)) _ hvisited rfl
  · intro htokens root hroot
    refine (structuralCaptures_named_iff_tree language root).2 fun n hn hanonymous => ?_
    have hin : n ∈ root.preorder := (Node.preorderTo_sublist structuralDepth root).subset hn
    exact htokens n.kind (hroot n hin hanonymous)

/-- A class without members. -/
def emptyClassTree : Node :=
  .mk ⟨0, "module", none, true, ⟨0, 0, 0⟩, ⟨13, 0, 13⟩⟩
    [.mk ⟨1, "class_definition", none, true, ⟨0, 0, 0⟩, ⟨13, 0, 13⟩⟩
      [.mk ⟨2, "class", none, false, ⟨0, 0, 0⟩, ⟨5, 0, 5⟩⟩ [],
        .mk ⟨3, "identifier", some "name", true, ⟨6, 0, 6⟩, ⟨7, 0, 7⟩⟩ [],
        .mk ⟨4, ":", none, false, ⟨7, 0, 7⟩, ⟨8, 0, 8⟩⟩ [],
        .mk ⟨5, "block", some "body", true, ⟨9, 0, 9⟩, ⟨13, 0, 13⟩⟩
          [.mk ⟨6, "pass_statement", none, true, ⟨9, 0, 9⟩, ⟨13, 0, 13⟩⟩
            [.mk ⟨7, "pass", none, false, ⟨9, 0, 9⟩, ⟨13, 0, 13⟩⟩ []]]]]

/-- The keyword `class` is no declaration kind of Python, and the class is found without it. -/
theorem structuralCaptures_named_emptyClass :
    (∀ token ∈ ["class", ":", "pass"], token ∉ structuralKindsOf "python") ∧
      emptyClassTree.TokensAmong ["class", ":", "pass"] ∧
      (structuralCaptures "python" emptyClassTree).map (·.body.id) = [1] ∧
      ∀ c ∈ structuralCaptures "python" emptyClassTree, c.body.named = true := by
  have htokens : ∀ token ∈ ["class", ":", "pass"], token ∉ structuralKindsOf "python" := by decide
  have hamong : emptyClassTree.TokensAmong ["class", ":", "pass"] := by decide
  refine ⟨htokens, hamong, by decide +kernel, ?_⟩
  exact (structuralCaptures_named_iff "python" ["class", ":", "pass"]).2.1.2 htokens _ hamong

/-- A module whose name has a scope. -/
def scopedModuleFile : SourceText := ⟨"src/mod.rb", "h", "module A::B\nend\n"⟩

def scopedModuleTree : Node :=
  .mk ⟨0, "program", none, true, ⟨0, 0, 0⟩, ⟨16, 2, 0⟩⟩
    [.mk ⟨1, "module", none, true, ⟨0, 0, 0⟩, ⟨15, 1, 3⟩⟩
      [.mk ⟨2, "module", none, false, ⟨0, 0, 0⟩, ⟨6, 0, 6⟩⟩ [],
        .mk ⟨3, "scope_resolution", some "name", true, ⟨7, 0, 7⟩, ⟨11, 0, 11⟩⟩
          [.mk ⟨4, "constant", some "scope", true, ⟨7, 0, 7⟩, ⟨8, 0, 8⟩⟩ [],
            .mk ⟨5, "::", none, false, ⟨8, 0, 8⟩, ⟨10, 0, 10⟩⟩ [],
            .mk ⟨6, "constant", some "name", true, ⟨10, 0, 10⟩, ⟨11, 0, 11⟩⟩ []],
        .mk ⟨7, "end", none, false, ⟨12, 1, 0⟩, ⟨15, 1, 3⟩⟩ []]]

/-- Neither query matches the module, and the walk finds its keyword beside it: the keyword becomes a
block of its own. -/
theorem structuralCaptures_take_keyword :
    let env : Environment := ⟨{}, Catalogue.compiler, id⟩
    let outcome := ((Services.ofSettings {}).extractFromRoot env "ruby"
      scopedModuleFile scopedModuleTree).1
    Language.hasGrammar "ruby" = true ∧ scopedModuleTree.LiesOver scopedModuleFile.text ∧
      scopedModuleTree.TokensAmong ["module", "::", "end"] ∧
      (structuralCaptures "ruby" scopedModuleTree).map (fun c => (c.body.id, c.body.named)) =
        [(1, true), (2, false)] ∧
      outcome.blocks.map (fun b => (b.type, b.identifier, b.content)) =
        [("module", "A::B", "module A::B\nend"), ("module", "module:1", "module")] := by
  refine ⟨by decide, ?_, by decide, ?_, ?_⟩
  · decide +kernel
  · decide +kernel
  · decide +kernel

end SourceBlocks
