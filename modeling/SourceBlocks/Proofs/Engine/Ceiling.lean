import SourceBlocks.Proofs.Engine.History

/-! # Texts over the limit of their path

A text that is worked on alone is measured first. A batch measures nothing: a file in it gives what
its tree gives, however long it is. -/

namespace SourceBlocks

namespace Services

/-- A file gives no block if it is blank, if its language has no parser at hand, or if no block that
was found is of a type that may occur. -/
theorem ownBlocks_eq_nil_iff {env : Environment} {s : Services} (h : s.Sound env.compiler)
    (file : SourceFile) :
    s.ownBlocks env file = [] ↔
      Text.isBlankText file.text = true ∨
      Language.hasGrammar (Detection.keyOf file.path) = false ∨
      s.pool.isHeld (Detection.keyOf file.path) = true ∨
      ∀ b ∈ chosenBlocks env (Detection.keyOf file.path) file.toSourceText file.tree
        Strategy.order s, env.settings.typeLimit b.type = 0 := by
  have hblocks := s.extractFromRoot_blocks env (Detection.keyOf file.path) file.toSourceText
    file.tree
  rw [Catalogue.hasStructuralSupport_eq] at hblocks
  rw [ownBlocks, extract_eq_extractFromRoot h]
  split
  case isTrue hlacks =>
    obtain ⟨-, -, hheld⟩ := hlacks
    exact iff_of_true rfl (Or.inr (Or.inr (Or.inl hheld)))
  case isFalse hhas =>
    rw [hblocks]
    split
    case isTrue hlooked =>
      obtain ⟨hblank, hgrammar⟩ := hlooked
      have hfree : s.pool.isHeld (Detection.keyOf file.path) = false := by
        rw [← Bool.not_eq_true]
        exact fun hheld => hhas ⟨hblank, hgrammar, hheld⟩
      rw [boundBlocks_eq_nil_iff]
      simp [hblank, hgrammar, hfree]
    case isFalse hnone =>
      -- a file that is not looked into is blank or of no supported language
      rw [Decidable.not_and_iff_not_or_not, Bool.not_eq_false, Bool.not_eq_true] at hnone
      exact iff_of_true rfl (hnone.imp_right Or.inl)

end Services

namespace Engine

/-- After any history, a text over the limit of its path gives no block on its own. In a batch the
last file of a path answers for the path with its own blocks, and its size makes no difference: it
gives none just when it is not looked into, or no block that was found may occur. -/
theorem overLimit_answers (env : Environment) (hvalid : env.settings.invalid? = none)
    (history : List Operation) (files : List SourceFile) (file : SourceFile)
    (hlast : lastAt file.path files = some file)
    (hover : env.settings.byteLimit file.path < file.text.utf8ByteSize) :
    let st := ((opened env).run env history).session
    let language := Detection.keyOf file.path
    Session.start env = .ok (Session.opened env) ∧
      (st.chunkText env file).1 = .skipped .fileTooLarge ∧
      (st.processBatch env files).1.results.lookup file.path =
        some (st.services.ownBlocks env file) ∧
      (st.services.ownBlocks env file = [] ↔
        Text.isBlankText file.text = true ∨ Language.hasGrammar language = false ∨
        st.services.pool.isHeld language = true ∨
        ∀ b ∈ Services.chosenBlocks env language file.toSourceText file.tree Strategy.order
          st.services, env.settings.typeLimit b.type = 0) := by
  intro st language
  have hst : st.Sound env.compiler := (good_run_opened hvalid history).session
  have hanswers : ((st.processBatch env files).1).Answers st.services env files :=
    (Session.processBatch_answers hvalid hst.services hst.detector env.settings.parallelGroups
      env.clock files).1
  refine ⟨Session.start_eq_ok hvalid, ?_, ?_, Services.ownBlocks_eq_nil_iff hst.services file⟩
  · rw [Session.chunkText_eq hst, if_neg (Nat.not_le.2 hover)]
  · rw [hanswers.blocks, hlast]
    rfl

/-- Settings that take files of one byte. -/
def oneByte : Settings := { maxFileBytes := 1, preload := [] }

/-- A file of four bytes. -/
def fourBytes : SourceFile where
  path := "a.py"
  hash := "h"
  text := "pass"
  tree := .mk ⟨0, "module", none, true, ⟨0, 0, 0⟩, ⟨4, 0, 4⟩⟩
    [.mk ⟨1, "pass_statement", none, true, ⟨0, 0, 0⟩, ⟨4, 0, 4⟩⟩
      [.mk ⟨2, "pass", none, false, ⟨0, 0, 0⟩, ⟨4, 0, 4⟩⟩ []]]

/-- While a client has the parser, the file gives no block in a batch either. -/
theorem overLimit_answers_heldParser :
    let env : Environment := ⟨oneByte, Catalogue.compiler, id⟩
    let st := ((opened env).run env [.acquire "python"]).session
    (env.settings.invalid? = none ∧ lastAt fourBytes.path [fourBytes] = some fourBytes ∧
      env.settings.byteLimit fourBytes.path < fourBytes.text.utf8ByteSize) ∧
    (st.chunkText env fourBytes).1 = .skipped .fileTooLarge ∧
    (st.processBatch env [fourBytes]).1.results.lookup "a.py" = some [] := by
  intro env st
  have hvalid : env.settings.invalid? = none := by decide
  have hlast : lastAt fourBytes.path [fourBytes] = some fourBytes := rfl
  have hover : env.settings.byteLimit fourBytes.path < fourBytes.text.utf8ByteSize := by
    decide +kernel
  obtain ⟨-, htext, hbatch, hnone⟩ :=
    overLimit_answers env hvalid [.acquire "python"] [fourBytes] fourBytes hlast hover
  have hheld : st.services.pool.isHeld (Detection.keyOf fourBytes.path) = true := by
    decide +kernel
  rw [hnone.2 (Or.inr (Or.inr (Or.inl hheld)))] at hbatch
  exact ⟨⟨hvalid, hlast, hover⟩, htext, hbatch⟩

/-- On a new engine the text gives no block, and the same file gives one in a batch: the limit is
checked on one way to the extraction and missed on the other. -/
theorem overLimit_passes_batch :
    let env : Environment := ⟨oneByte, Catalogue.compiler, id⟩
    let st := Session.opened env
    env.settings.invalid? = none ∧
      env.settings.byteLimit fourBytes.path < fourBytes.text.utf8ByteSize ∧
      (st.chunkText env fourBytes).1.blocks = [] ∧
      ((st.processBatch env [fourBytes]).1.results.lookup "a.py").map (·.map Block.content) =
        some ["pass"] := by
  refine ⟨by decide, by decide +kernel, by decide +kernel, by decide +kernel⟩

end Engine

end SourceBlocks
