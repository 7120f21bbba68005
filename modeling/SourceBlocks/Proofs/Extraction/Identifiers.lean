import SourceBlocks.Proofs.Block.Identifier
import SourceBlocks.Proofs.Extraction.Usable

/-! # Identifiers of extracted blocks

Whichever query or walk finds a declaration, its name is captured below the body or looked up there, so
each block is named by a piece of its own content, or by its type and its first line. -/

namespace SourceBlocks

theorem Capture.namedBelow_ofKind? {kinds : List String} {n : Node} {c : Capture}
    (h : Capture.ofKind? kinds n = some c) : c.NamedBelow := by
  rw [ofKind?] at h
  split at h
  case isFalse => contradiction
  case isTrue =>
    obtain rfl := Option.some.inj h
    intro name hname
    contradiction

namespace Environment

variable {env : Environment} {language : String} {file : SourceText} {root : Node} {b : Block}

theorem namedWithin_of_queryFinds (hcatalogue : env.compiler.TakesCatalogue) (hroot : root.Nested)
    {query : Option Query} (hlisted : ∀ q, query = some q → Catalogue.Lists language q)
    (hb : b ∈ (env.queryFinds language file root query).blocks) : b.NamedWithin := by
  obtain ⟨q, hq, c, hc, hblock⟩ := (mem_queryFinds hcatalogue hlisted).1 hb
  obtain ⟨-, -, hbody, -, hname⟩ := (hlisted q hq).usable hc
  exact Capture.namedWithin_of_block? (hroot.subtree hbody) hname hblock

theorem namedWithin_of_finds (hcatalogue : env.compiler.TakesCatalogue) (hroot : root.Nested)
    {strategy : Strategy} (hstrategy : strategy ≠ .wholeFile)
    (hb : b ∈ (env.finds language file root strategy).blocks) : b.NamedWithin := by
  cases strategy with
  | primaryQuery => exact namedWithin_of_queryFinds hcatalogue hroot (fun _ => Or.inl) hb
  | fallbackQuery => exact namedWithin_of_queryFinds hcatalogue hroot (fun _ => Or.inr) hb
  | structural =>
    obtain ⟨c, hc, hblock⟩ := List.mem_filterMap.1 hb
    obtain ⟨n, -, hkind⟩ := List.mem_filterMap.1 hc
    have hbody := hroot.subtree (body_mem_of_structuralCaptures hc)
    exact Capture.namedWithin_of_block? hbody (Capture.namedBelow_ofKind? hkind) hblock
  | wholeFile => contradiction

end Environment

namespace Services

/-- In a tree whose nodes keep their children inside their bytes, each block of a query of the
catalogue or of the structural walk is named by its type and its first line, or by a piece of its
content that stands on one line. The name of a declaration is looked up below it. Following declarators
from a node ends after at most as many turns as the subtree has nodes, at a node of the subtree that no
declarator leads on from. -/
theorem attempt_namedWithin (language : String) :
    (∀ (env : Environment) (s : Services) (file : SourceText) (root : Node) (strategy : Strategy),
      env.compiler.TakesCatalogue → s.Sound env.compiler → root.Nested → strategy ≠ .wholeFile →
      ∀ b ∈ (s.attempt env language file root strategy).1.blocks, b.NamedWithin) ∧
    (∀ body name, Node.declaredName? language body = some name → name.Below body) ∧
    ∀ n : Node, (∀ more, n.follow? (n.size + more) = some n.innermost) ∧
      n.innermost ∈ n.preorder ∧ n.innermost.innerDeclarator? = none := by
  refine ⟨?_, fun _ _ => Node.declaredName?_below, fun n => ⟨fun more => ?_, ?_, ?_⟩⟩
  · intro env s file root strategy hcatalogue hs hroot hstrategy b hb
    rw [attempt_eq_finds hs] at hb
    exact Environment.namedWithin_of_finds hcatalogue hroot hstrategy hb
  · exact n.follow?_eq_innermost (Nat.le_add_right _ more)
  · exact n.innermost_mem_preorder
  · exact n.innerDeclarator?_innermost

/-- A function that returns a reference and has its qualified name on three lines. -/
def spreadNameFile : SourceText := ⟨"src/t.cpp", "h", "T&\nmulti\n::\nline() \x7b\x7d\n"⟩

def spreadNameTree : Node :=
  .mk ⟨0, "translation_unit", none, true, ⟨0, 0, 0⟩, ⟨22, 4, 0⟩⟩
    [.mk ⟨1, "function_definition", none, true, ⟨0, 0, 0⟩, ⟨21, 3, 9⟩⟩
      [.mk ⟨2, "type_identifier", some "type", true, ⟨0, 0, 0⟩, ⟨1, 0, 1⟩⟩ [],
        .mk ⟨3, "reference_declarator", some "declarator", true, ⟨1, 0, 1⟩, ⟨18, 3, 6⟩⟩
          [.mk ⟨4, "&", none, false, ⟨1, 0, 1⟩, ⟨2, 0, 2⟩⟩ [],
            .mk ⟨5, "function_declarator", none, true, ⟨3, 1, 0⟩, ⟨18, 3, 6⟩⟩
              [.mk ⟨6, "qualified_identifier", some "declarator", true, ⟨3, 1, 0⟩, ⟨16, 3, 4⟩⟩
                [.mk ⟨7, "namespace_identifier", some "scope", true, ⟨3, 1, 0⟩, ⟨8, 1, 5⟩⟩ [],
                  .mk ⟨8, "::", none, false, ⟨9, 2, 0⟩, ⟨11, 2, 2⟩⟩ [],
                  .mk ⟨9, "identifier", some "name", true, ⟨12, 3, 0⟩, ⟨16, 3, 4⟩⟩ []],
                .mk ⟨10, "parameter_list", some "parameters", true, ⟨16, 3, 4⟩, ⟨18, 3, 6⟩⟩
                  [.mk ⟨11, "(", none, false, ⟨16, 3, 4⟩, ⟨17, 3, 5⟩⟩ [],
                    .mk ⟨12, ")", none, false, ⟨17, 3, 5⟩, ⟨18, 3, 6⟩⟩ []]]],
        .mk ⟨13, "compound_statement", some "body", true, ⟨19, 3, 7⟩, ⟨21, 3, 9⟩⟩
          [.mk ⟨14, "\x7b", none, false, ⟨19, 3, 7⟩, ⟨20, 3, 8⟩⟩ [],
            .mk ⟨15, "\x7d", none, false, ⟨20, 3, 8⟩, ⟨21, 3, 9⟩⟩ []]]]

def spreadNameBlock : Block :=
  ⟨"function", "multi", "src/t.cpp", "h", 1, 4, "T&\nmulti\n::\nline() \x7b\x7d"⟩

/-- The name is found through two declarators and cut to its first line. -/
theorem attempt_namedWithin_spreadName :
    let env : Environment := ⟨{}, Catalogue.compiler, id⟩
    let s := Services.ofSettings {}
    let blocks := (s.attempt env "cpp" spreadNameFile spreadNameTree .primaryQuery).1.blocks
    (env.compiler.TakesCatalogue ∧ s.Sound env.compiler ∧ spreadNameTree.Nested) ∧
      spreadNameBlock ∈ blocks ∧ spreadNameBlock.NamedWithin := by
  intro env s blocks
  have hs : s.Sound env.compiler := sound_ofSettings Catalogue.compiler {}
  have hroot : spreadNameTree.Nested := by decide +kernel
  have hmem : spreadNameBlock ∈ blocks := by decide +kernel
  refine ⟨⟨Catalogue.compiler_takesCatalogue, hs, hroot⟩, hmem, ?_⟩
  exact (attempt_namedWithin "cpp").1 env s spreadNameFile spreadNameTree .primaryQuery
    Catalogue.compiler_takesCatalogue hs hroot (by simp) spreadNameBlock hmem

end Services

end SourceBlocks
