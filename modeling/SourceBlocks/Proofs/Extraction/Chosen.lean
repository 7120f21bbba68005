import SourceBlocks.Extraction.Basic

/-! # The blocks that a file gives

The blocks of an extraction are those of the first strategy that gives any, bounded. -/

namespace SourceBlocks

namespace Services

/-- The blocks of the first strategy that gives any, before they are bounded. -/
def chosenBlocks (env : Environment) (language : String) (file : SourceText) (root : Node) :
    List Strategy → Services → List Block
  | [], _ => []
  | strategy :: rest, s =>
    let (a, s) := s.attempt env language file root strategy
    if a.blocks.isEmpty then chosenBlocks env language file root rest s else a.blocks

theorem tryInOrder_blocks (env : Environment) (language : String) (file : SourceText)
    (root : Node) (strategies : List Strategy) :
    ∀ (captures skipped : Nat) (s : Services),
      (tryInOrder env language file root strategies captures skipped s).1.blocks =
        boundBlocks env.settings language (chosenBlocks env language file root strategies s) := by
  induction strategies with
  | nil => intro captures skipped s; rfl
  | cons strategy rest ih =>
    intro captures skipped s
    rw [tryInOrder, chosenBlocks]
    dsimp only
    split
    · exact ih _ _ _
    · rfl

/-- What holds of the blocks of each strategy, and of none, holds of the chosen ones. -/
theorem chosenBlocks_induction {P : List Block → Prop} {env : Environment} {language : String}
    {file : SourceText} {root : Node} (nil : P [])
    (attempt : ∀ (s : Services) (strategy : Strategy),
      P (s.attempt env language file root strategy).1.blocks) (strategies : List Strategy) :
    ∀ s : Services, P (chosenBlocks env language file root strategies s) := by
  induction strategies with
  | nil => intro s; exact nil
  | cons strategy rest ih =>
    intro s
    rw [chosenBlocks]
    dsimp only
    split
    · exact ih _
    · exact attempt s strategy

/-- A blank text needs no tree; a language without structural support needs none and is reported;
any other file is looked into. -/
theorem precheck_cases (s : Services) (language : String) (file : SourceText) :
    (Text.isBlankText file.text = true ∧
      s.precheck language file = (some (.skipped .emptyText), s)) ∨
    (Text.isBlankText file.text = false ∧ Catalogue.hasStructuralSupport language = false ∧
      s.precheck language file = (some (.skipped .unsupportedLanguage),
        s.report ((Failure.unsupportedLanguage language).reportAt
          (extractionOrigin "extract_blocks" language file)))) ∨
    (Text.isBlankText file.text = false ∧ Catalogue.hasStructuralSupport language = true ∧
      s.precheck language file = (none, s)) := by
  cases hblank : Text.isBlankText file.text with
  | true => exact Or.inl ⟨rfl, by simp [precheck, hblank]⟩
  | false =>
    cases hsupport : Catalogue.hasStructuralSupport language with
    | false => exact Or.inr (Or.inl ⟨rfl, rfl, by simp [precheck, hblank, hsupport]⟩)
    | true => exact Or.inr (Or.inr ⟨rfl, rfl, by simp [precheck, hblank, hsupport]⟩)

theorem extractFromRoot_succeeded (s : Services) (env : Environment) (language : String)
    (file : SourceText) (root : Node) :
    (s.extractFromRoot env language file root).1.succeeded = true := by
  rcases s.precheck_cases language file with ⟨-, h⟩ | ⟨-, -, h⟩ | ⟨-, -, h⟩ <;>
    simp [extractFromRoot, h, Extraction.succeeded]

/-- An extraction that looks at the tree bounds the chosen blocks; any other gives none. -/
theorem extractFromRoot_blocks (s : Services) (env : Environment) (language : String)
    (file : SourceText) (root : Node) :
    (s.extractFromRoot env language file root).1.blocks =
      if Text.isBlankText file.text = false ∧ Catalogue.hasStructuralSupport language = true then
        boundBlocks env.settings language
          (chosenBlocks env language file root Strategy.order s)
      else [] := by
  rw [extractFromRoot]
  rcases s.precheck_cases language file with ⟨hb, h⟩ | ⟨hb, hs, h⟩ | ⟨hb, hs, h⟩
  · rw [h, hb]
    rfl
  · rw [h, hs]
    simp [Extraction.blocks]
  · rw [h, if_pos ⟨hb, hs⟩]
    exact tryInOrder_blocks ..

end Services

end SourceBlocks
