import SourceBlocks.Proofs.Block.Bounding
import SourceBlocks.Proofs.Extraction.Chosen

/-! # Which files give blocks

With the whole file as the last resort some strategy always finds blocks. Limits are applied after
the strategy is chosen, to the whole file as to any other block, so a file comes out empty just when
no block that was found is of a type that may occur. -/

namespace SourceBlocks

theorem isBlankText_of_trimmedLength {text : String} (h : 0 < Text.trimmedLength text.toList) :
    Text.isBlankText text = false := by
  rw [Bool.eq_false_iff]
  intro hblank
  rw [Text.trimmedLength, Text.stripEnds_of_all hblank] at h
  exact absurd h (Nat.lt_irrefl 0)

theorem Settings.typeLimit_pos {s : Settings} (hf : 0 < s.maxFunctions) (hc : 0 < s.maxClasses)
    (hi : 0 < s.maxImpls) (type : String) : 0 < s.typeLimit type := by
  rw [typeLimit]
  split
  · exact hf
  · split
    · exact hi
    · exact hc

namespace Services

/-- A strategy that always finds blocks, wherever it stands in the order, is never passed over for
none. -/
theorem chosenBlocks_ne_nil {env : Environment} {language : String} {file : SourceText}
    {root : Node} {strategy : Strategy}
    (h : ∀ s : Services, (s.attempt env language file root strategy).1.blocks ≠ [])
    {strategies : List Strategy} (hmem : strategy ∈ strategies) :
    ∀ s : Services, chosenBlocks env language file root strategies s ≠ [] := by
  induction strategies with
  | nil => simp at hmem
  | cons first rest ih =>
    intro s
    rw [chosenBlocks]
    dsimp only
    split
    case isTrue hempty =>
      rcases List.mem_cons.1 hmem with rfl | hrest
      · exact absurd (List.isEmpty_iff.1 hempty) (h s)
      · exact ih hrest _
    case isFalse hfound =>
      exact fun hnil => hfound (List.isEmpty_iff.2 hnil)

theorem attempt_wholeFile_ne_nil {env : Environment} {file : SourceText}
    (hfallback : env.settings.wholeFileFallback = true)
    (hsize : max 1 env.settings.minBlockChars ≤ Text.trimmedLength file.text.toList)
    (language : String) (root : Node) (s : Services) :
    (s.attempt env language file root .wholeFile).1.blocks ≠ [] := by
  have hlong : ¬ Text.trimmedLength file.text.toList < max env.settings.minBlockChars 1 := by
    omega
  simp [attempt, hfallback, wholeFileBlock?, hlong]

/-- Some strategy finds blocks in a file of a supported language that is long enough, and the
extraction succeeds. It gives blocks just when one that was found is of a type that may occur, so
always when no limit of a type is zero. -/
theorem extractFromRoot_ne_nil_iff (s : Services) (env : Environment) (language : String)
    (file : SourceText) (root : Node) (hfallback : env.settings.wholeFileFallback = true)
    (hlanguage : Language.hasGrammar language = true)
    (hsize : max 1 env.settings.minBlockChars ≤ Text.trimmedLength file.text.toList) :
    let found := chosenBlocks env language file root Strategy.order s
    let outcome := (s.extractFromRoot env language file root).1
    found ≠ [] ∧ outcome.succeeded = true ∧
      (outcome.blocks ≠ [] ↔ ∃ b ∈ found, 0 < env.settings.typeLimit b.type) ∧
      (0 < env.settings.maxFunctions → 0 < env.settings.maxClasses → 0 < env.settings.maxImpls →
        outcome.blocks ≠ []) := by
  intro found outcome
  have hpos : 0 < Text.trimmedLength file.text.toList := by omega
  have hblank := isBlankText_of_trimmedLength hpos
  have hsupport : Catalogue.hasStructuralSupport language = true := by
    rw [Catalogue.hasStructuralSupport_eq, hlanguage]
  have hfound : found ≠ [] :=
    chosenBlocks_ne_nil (attempt_wholeFile_ne_nil hfallback hsize language root)
      (by decide : Strategy.wholeFile ∈ Strategy.order) s
  have hblocks : outcome.blocks = boundBlocks env.settings language found := by
    rw [show outcome.blocks = _ from extractFromRoot_blocks .., if_pos ⟨hblank, hsupport⟩]
  have hiff : outcome.blocks ≠ [] ↔ ∃ b ∈ found, 0 < env.settings.typeLimit b.type := by
    rw [hblocks, Ne, boundBlocks_eq_nil_iff]
    simp [Nat.pos_iff_ne_zero]
  refine ⟨hfound, s.extractFromRoot_succeeded .., hiff, fun hf hc hi => hiff.2 ?_⟩
  obtain ⟨b, hb⟩ := List.exists_mem_of_ne_nil found hfound
  exact ⟨b, hb, Settings.typeLimit_pos hf hc hi b.type⟩

/-- A file without declarations. -/
def statementFile : SourceText := ⟨"src/mod.py", "h", "pass"⟩

def statementTree : Node :=
  .mk ⟨0, "module", none, true, ⟨0, 0, 0⟩, ⟨4, 0, 4⟩⟩
    [.mk ⟨1, "pass_statement", none, true, ⟨0, 0, 0⟩, ⟨4, 0, 4⟩⟩
      [.mk ⟨2, "pass", none, false, ⟨0, 0, 0⟩, ⟨4, 0, 4⟩⟩ []]]

/-- Under the default limits the file is one block. -/
theorem extractFromRoot_ne_nil_statement :
    let env : Environment := ⟨{}, Catalogue.compiler, id⟩
    (env.settings.wholeFileFallback = true ∧ Language.hasGrammar "python" = true ∧
      max 1 env.settings.minBlockChars ≤ Text.trimmedLength statementFile.text.toList) ∧
    ((Services.ofSettings {}).extractFromRoot env "python" statementFile statementTree).1.blocks
      ≠ [] := by
  have hsize : max 1 ({} : Settings).minBlockChars ≤
      Text.trimmedLength statementFile.text.toList := by decide
  refine ⟨⟨rfl, by decide, hsize⟩, ?_⟩
  exact (extractFromRoot_ne_nil_iff _ _ "python" statementFile statementTree rfl (by decide)
    hsize).2.2.2 (by decide) (by decide) (by decide)

/-- Settings that are valid and let no block of another type than functions and implementations
occur. -/
def withoutClasses : Settings := { maxClasses := 0 }

/-- With no room for classes the whole file is dropped too, although it was the last resort: the
extraction succeeds and the file is lost. -/
theorem extractFromRoot_loses_statement :
    let env : Environment := ⟨withoutClasses, Catalogue.compiler, id⟩
    let outcome := ((Services.ofSettings withoutClasses).extractFromRoot env "python"
      statementFile statementTree).1
    env.settings.invalid? = none ∧ env.settings.wholeFileFallback = true ∧
      Language.hasGrammar "python" = true ∧
      max 1 env.settings.minBlockChars ≤ Text.trimmedLength statementFile.text.toList ∧
      outcome = .extracted "python" ⟨some .wholeFile, [], 0, 0⟩ := by
  refine ⟨by decide, rfl, by decide, by decide, ?_⟩
  decide +kernel

end Services

end SourceBlocks
