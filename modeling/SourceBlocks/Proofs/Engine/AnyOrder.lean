import SourceBlocks.Proofs.Engine.History

/-! # Batches in any order

The order in which the language groups of a batch are worked on, and whether large ones go first,
does not show in what the batch comes to. Neither do the other files of the batch. -/

namespace SourceBlocks

/-- The outcomes have the same counts and the same blocks for each path. -/
structure BatchOutcome.Same (o o' : BatchOutcome) : Prop where
  succeeded : o'.succeeded = o.succeeded
  processed : o'.processed = o.processed
  failed : o'.failed = o.failed
  blocks : ∀ path, o'.results.lookup path = o.results.lookup path

/-- What a batch is to answer leaves no choice. -/
theorem BatchOutcome.Answers.same {o o' : BatchOutcome} {s : Services} {env : Environment}
    {files : List SourceFile} (h : o.Answers s env files) (h' : o'.Answers s env files) :
    o.Same o' where
  succeeded := h'.succeeded.trans h.succeeded.symm
  processed := by
    have hall := h.all
    rw [h.failed] at hall
    have hall' := h'.all
    rw [h'.failed] at hall'
    omega
  failed := h'.failed.trans h.failed.symm
  blocks path := (h'.blocks path).trans (h.blocks path).symm

namespace Engine

/-- After any history a batch answers for its files: each path has the blocks that its last file
gives on its own, and just the files whose parser is out fail. Neither the order of the groups nor
whether they may run beside each other changes this, and a path has what it would have in a batch of
its last file alone. -/
theorem batch_answers (env : Environment) (hvalid : env.settings.invalid? = none)
    (history : List Operation) (files : List SourceFile) :
    let st := ((opened env).run env history).session
    let outcome := (st.processBatch env files).1
    Session.start env = .ok (Session.opened env) ∧
      outcome.Answers st.services env files ∧
      (∀ parallel, outcome.Same (st.processBatch
        { env with settings := { env.settings with parallelGroups := parallel } } files).1) ∧
      (∀ order, order.Perm (st.groupFiles files []).1 →
        outcome.Same (st.services.processGroups env order .empty).1) ∧
      (∀ file, lastAt file.path files = some file →
        (st.processBatch env [file]).1.results.lookup file.path =
          outcome.results.lookup file.path) := by
  intro st outcome
  have hst : st.Sound env.compiler := (good_run_opened hvalid history).session
  have hany := fun parallel files => (Session.processBatch_answers hvalid hst.services
    hst.detector parallel env.clock files).1
  have houtcome : outcome.Answers st.services env files := hany env.settings.parallelGroups files
  refine ⟨Session.start_eq_ok hvalid, houtcome, fun parallel => houtcome.same (hany parallel files),
    fun order horder => ?_, fun file hlast => ?_⟩
  · have hgroups := (groupsOf_groupFiles files hst.detector GroupsOf.nil List.Pairwise.nil).1
    exact houtcome.same ((hgroups.reorder horder).processGroups_answers hvalid hst.services
      env.settings.parallelGroups env.clock).1
  · have halone : ((st.processBatch env [file]).1).Answers st.services env [file] :=
      hany env.settings.parallelGroups [file]
    rw [halone.blocks, houtcome.blocks, hlast]
    simp [lastAt]

/-- Two versions of a file with a file that needs no parser between them. -/
def mixedBatch : List SourceFile :=
  let tree : Node := .mk ⟨0, "module", none, true, ⟨0, 0, 0⟩, ⟨4, 0, 4⟩⟩ []
  [⟨⟨"a.py", "1", "pass"⟩, tree⟩, ⟨⟨"notes", "2", "text"⟩, tree⟩, ⟨⟨"a.py", "3", "pass"⟩, tree⟩]

/-- While a client has the parser both versions fail, and the path is there once, without blocks. -/
theorem batch_answers_mixedBatch :
    let env : Environment := ⟨{ preload := [] }, Catalogue.compiler, id⟩
    let st := ((opened env).run env [.acquire "python"]).session
    let outcome := (st.processBatch env mixedBatch).1
    env.settings.invalid? = none ∧ outcome.Answers st.services env mixedBatch ∧
      outcome.failed = 2 ∧ outcome.results.lookup "a.py" = some [] := by
  intro env st outcome
  have hvalid : env.settings.invalid? = none := by decide
  obtain ⟨-, hanswers, -⟩ := batch_answers env hvalid [.acquire "python"] mixedBatch
  refine ⟨hvalid, hanswers, hanswers.failed.trans ?_, (hanswers.blocks "a.py").trans ?_⟩
  · decide +kernel
  · decide +kernel

end Engine

end SourceBlocks
