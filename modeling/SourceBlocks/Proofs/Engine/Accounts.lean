import Mathlib.Data.List.Dedup
import SourceBlocks.Proofs.Engine.History
import SourceBlocks.Proofs.Extraction.Charges

/-! # What a batch is charged with

A batch checks out one parser for each supported language among its files. It reports each file with
text in a language that is not supported, and each supported language whose parser is out, and nothing
else. -/

namespace SourceBlocks

/-- The file has text, and its path is of no language or of one without a grammar. -/
def SourceFile.isUnsupported (file : SourceFile) : Bool :=
  !Text.isBlankText file.text && !Language.hasGrammar (Detection.keyOf file.path)

/-- The languages with a grammar among files, each once. -/
def supportedLanguages (files : List SourceFile) : List String :=
  (files.map fun file => Detection.keyOf file.path).dedup.filter Language.hasGrammar

/-- The report of a file whose language has no grammar, under the language of its path. -/
def SourceFile.report (file : SourceFile) : Report :=
  unsupportedReport (Detection.keyOf file.path) file.toSourceText

/-- The language has a grammar and its parser is out. -/
def Services.isWaitedFor (s : Services) (language : String) : Bool :=
  Language.hasGrammar language && s.pool.isHeld language

namespace Services

variable {env : Environment} {s t : Services}

/-- Files are charged one by one. -/
theorem charges_processFiles {extractFile : Services → SourceFile → Extraction × Services}
    {reports : SourceFile → List Report} {P : Services → Prop} (plan : GroupPlan)
    (files : List SourceFile)
    (step : ∀ file ∈ files, ∀ s, P s → P (extractFile s file).2 ∧
      s.Charges (extractFile s file).2 (reports file) 0 0) :
    ∀ {s : Services} (o : BatchOutcome), P s →
      P (processFiles plan extractFile s files o).2 ∧
        s.Charges (processFiles plan extractFile s files o).2 (files.flatMap reports) 0 0 := by
  induction files with
  | nil => exact fun o h => ⟨h, .refl _⟩
  | cons file rest ih =>
    intro s o h
    obtain ⟨hnext, hfirst⟩ := step file List.mem_cons_self s h
    obtain ⟨hlast, hrest⟩ := ih (fun f hf => step f (List.mem_cons_of_mem _ hf))
      (o.add file.path (keepBlocks plan (extractFile s file).1)) hnext
    exact ⟨hlast, hfirst.trans hrest⟩

theorem flatMap_unsupported {language : String} (files : List SourceFile)
    (hkey : ∀ file ∈ files, Detection.keyOf file.path = language)
    (hgrammar : Language.hasGrammar language = false) :
    (files.flatMap fun file => if Text.isBlankText file.text then []
      else [unsupportedReport language file.toSourceText]) =
      (files.filter SourceFile.isUnsupported).map SourceFile.report := by
  induction files with
  | nil => rfl
  | cons file rest ih =>
    have hown := hkey file List.mem_cons_self
    have hrest := ih fun f hf => hkey f (List.mem_cons_of_mem _ hf)
    rw [List.flatMap_cons, hrest, List.filter_cons, SourceFile.isUnsupported, hown, hgrammar]
    cases Text.isBlankText file.text with
    | true => rfl
    | false =>
      rw [show unsupportedReport language file.toSourceText = file.report by
        rw [SourceFile.report, hown]]
      rfl

theorem filter_isUnsupported_eq_nil {language : String} {files : List SourceFile}
    (hkey : ∀ file ∈ files, Detection.keyOf file.path = language)
    (hgrammar : Language.hasGrammar language = true) :
    files.filter SourceFile.isUnsupported = [] := by
  rw [List.filter_eq_nil_iff]
  intro file hfile hunsupported
  rw [SourceFile.isUnsupported, hkey file hfile, hgrammar] at hunsupported
  simp at hunsupported

/-- The reports of a group: its files that are not supported, or its parser if that is out. -/
def groupReports (s : Services) (group : LanguageGroup) : List Report :=
  (group.files.filter SourceFile.isUnsupported).map SourceFile.report ++
    if s.isWaitedFor group.language then [unavailableReport group.language] else []

/-- A group is charged with one checkout if its language has a grammar, and with the wait if the
parser is out. -/
theorem charges_processGroup (hcatalogue : env.compiler.TakesCatalogue)
    (hs : s.Sound env.compiler) {group : LanguageGroup}
    (hkey : ∀ file ∈ group.files, Detection.keyOf file.path = group.language) (o : BatchOutcome) :
    s.Charges (s.processGroup env group o).2 (s.groupReports group)
      (if Language.hasGrammar group.language then 1 else 0)
      (if s.isWaitedFor group.language then 1 else 0) := by
  have hneeds : ((env.settings.groupPlan group.language group.files.length).sharesParser &&
      (env.settings.tuning group.language).hasStructuralSupport) =
      Language.hasGrammar group.language := Settings.hasStructuralSupport_tuning _ _
  rw [processGroup, groupReports, isWaitedFor]
  dsimp only
  rw [hneeds]
  cases hgrammar : Language.hasGrammar group.language with
  | false =>
    have hfiles := flatMap_unsupported group.files hkey hgrammar
    rw [← hfiles]
    simp only [Bool.false_and, Bool.false_eq_true, if_false, List.append_nil]
    refine (charges_processFiles (P := fun _ => True) _ group.files (fun file _ u _ => ?_) o
      trivial).2
    exact ⟨trivial, charges_extract_of_unsupported u env hgrammar file⟩
  | true =>
    rw [filter_isUnsupported_eq_nil hkey hgrammar, if_pos rfl, List.map_nil, List.nil_append,
      Bool.true_and]
    cases hlease : (s.pool.acquire group.language).lease with
    | error failure =>
      obtain ⟨hspends, hwhy⟩ := ParserPool.spends_acquire_error hgrammar hlease
      have hheld : s.pool.isHeld group.language = true :=
        (ParserPool.acquire_error hs.pool hlease).1.resolve_right (by simp [hgrammar])
      simp only [acquire_of_error hlease, hheld, if_true]
      exact ⟨by rw [hwhy]; rfl, hspends⟩
    | ok lease =>
      have hfree : s.pool.isHeld group.language = false :=
        (ParserPool.acquire_ok hs.pool hlease).1
      have htaken := hs.checkout group.language
      simp only [acquire_of_ok hlease, hfree, if_true, Bool.false_eq_true, if_false]
      -- the work reports nothing and leaves the pool alone between checkout and return
      have hstep : ∀ file ∈ group.files, ∀ u, (s.checkout group.language).Keeps env.compiler u →
          (s.checkout group.language).Keeps env.compiler
            (u.extractParsed env group.language file).2 ∧
          u.Charges (u.extractParsed env group.language file).2 [] 0 0 := by
        intro file _ u hu
        have hsound := hu.sound htaken
        have hkeeps := keeps_extractFromRoot hsound group.language file.toSourceText file.tree
        rw [← extractParsed_eq_extractFromRoot] at hkeeps
        exact ⟨hu.trans hkeeps, charges_extractParsed hcatalogue hsound hgrammar file⟩
      obtain ⟨hkept, hwork⟩ := charges_processFiles
        (env.settings.groupPlan group.language group.files.length) group.files hstep o
        (.refl htaken)
      have hlog := hwork.log
      rw [List.flatMap_eq_nil_iff.2 fun _ _ => rfl] at hlog
      refine ⟨hlog, ?_⟩
      rw [release, hkept.pool]
      exact ParserPool.spends_acquire_release hs.pool hlease

theorem isWaitedFor_eq (h : s.Resumes env.compiler t) (language : String) :
    t.isWaitedFor language = s.isWaitedFor language := by
  rw [isWaitedFor, isWaitedFor, h.pool.held]

theorem charges_processGroups (hvalid : env.settings.invalid? = none)
    (hcatalogue : env.compiler.TakesCatalogue) (hs : s.Sound env.compiler)
    (groups : List LanguageGroup)
    (hkey : ∀ group ∈ groups, ∀ file ∈ group.files,
      Detection.keyOf file.path = group.language) :
    ∀ {t : Services} (o : BatchOutcome), s.Resumes env.compiler t →
      t.Charges (t.processGroups env groups o).2 (groups.flatMap s.groupReports)
        (groups.countP fun group => Language.hasGrammar group.language)
        (groups.countP fun group => s.isWaitedFor group.language) := by
  induction groups with
  | nil => exact fun o _ => .refl _
  | cons group rest ih =>
    intro t o ht
    have hown := hkey group List.mem_cons_self
    have hfirst := charges_processGroup hcatalogue ht.sound hown o
    obtain ⟨-, hnext⟩ := processGroup_eq hvalid hs ht env.settings.parallelGroups env.clock hown o
    have hrest := ih (fun g hg => hkey g (List.mem_cons_of_mem _ hg))
      (t.processGroup env group o).1 hnext
    rw [groupReports, isWaitedFor_eq ht] at hfirst
    rw [processGroups, List.flatMap_cons, groupReports, List.countP_cons, List.countP_cons,
      Nat.add_comm (rest.countP _), Nat.add_comm (rest.countP _)]
    exact hfirst.trans hrest

theorem flatMap_groupReports_perm (s : Services) (groups : List LanguageGroup) :
    (groups.flatMap s.groupReports).Perm
      (((groups.flatMap LanguageGroup.files).filter SourceFile.isUnsupported).map
          SourceFile.report ++
        ((groups.map LanguageGroup.language).filter s.isWaitedFor).map unavailableReport) := by
  induction groups with
  | nil => exact .refl _
  | cons group rest ih =>
    have hwaited : ((group.language :: rest.map LanguageGroup.language).filter s.isWaitedFor).map
        unavailableReport = (if s.isWaitedFor group.language then
          [unavailableReport group.language] else []) ++
        ((rest.map LanguageGroup.language).filter s.isWaitedFor).map unavailableReport := by
      rw [List.filter_cons]
      split <;> rfl
    rw [List.flatMap_cons, List.flatMap_cons, List.map_cons, hwaited, List.filter_append,
      List.map_append, groupReports, List.append_assoc, List.append_assoc]
    refine List.Perm.append_left _ ?_
    exact (ih.append_left _).trans (List.perm_append_comm_assoc _ _ _)

end Services

/-- A group is made for a file. -/
theorem files_addToGroup_ne_nil {language : String} {file : SourceFile}
    {groups : List LanguageGroup} (hsorted : SortedGroups groups)
    (h : ∀ g ∈ groups, g.files ≠ []) : ∀ g ∈ addToGroup language file groups, g.files ≠ [] := by
  intro g hg
  rcases (mem_addToGroup hsorted g).1 hg with ⟨hin, -⟩ | ⟨old, -, -, rfl⟩ | ⟨-, rfl⟩
  · exact h g hin
  · exact List.append_ne_nil_of_right_ne_nil _ (List.cons_ne_nil _ _)
  · exact List.cons_ne_nil _ _

theorem files_groupFiles_ne_nil (files : List SourceFile) :
    ∀ {st : Session} {groups : List LanguageGroup}, SortedGroups groups →
      (∀ g ∈ groups, g.files ≠ []) → ∀ g ∈ (st.groupFiles files groups).1, g.files ≠ [] := by
  induction files with
  | nil => exact fun _ h => h
  | cons file rest ih =>
    intro st groups hsorted h
    rw [Session.groupFiles]
    exact ih (sortedGroups_addToGroup _ file hsorted) (files_addToGroup_ne_nil hsorted h)

/-- Groups without an empty one have the languages of the files, each once. -/
theorem GroupsOf.languages_perm {files : List SourceFile} {groups : List LanguageGroup}
    (h : GroupsOf files groups) (hfiles : ∀ g ∈ groups, g.files ≠ []) :
    (groups.map LanguageGroup.language).Perm
      (files.map fun file => Detection.keyOf file.path).dedup := by
  apply (List.perm_ext_iff_of_nodup h.once (List.nodup_dedup _)).2
  intro language
  rw [List.mem_dedup, List.mem_map, List.mem_map]
  constructor
  · rintro ⟨g, hg, rfl⟩
    obtain ⟨file, hfile⟩ := List.exists_mem_of_ne_nil _ (hfiles g hg)
    exact ⟨file, h.all.mem_iff.1 (List.mem_flatMap.2 ⟨g, hg, hfile⟩), h.keyOf_eq hg hfile⟩
  · rintro ⟨file, hfile, rfl⟩
    obtain ⟨g, hg, hin⟩ := List.mem_flatMap.1 (h.all.mem_iff.2 hfile)
    exact ⟨g, hg, (h.keyOf_eq hg hin).symm⟩

/-- Groups whose languages pass a test are counted by the languages that pass it. -/
theorem GroupsOf.countP_language {files : List SourceFile} {groups : List LanguageGroup}
    (h : GroupsOf files groups) (hfiles : ∀ g ∈ groups, g.files ≠ []) (p : String → Bool) :
    (groups.countP fun g => p g.language) =
      ((files.map fun file => Detection.keyOf file.path).dedup.filter p).length := by
  rw [← List.countP_eq_length_filter, ← (h.languages_perm hfiles).countP_eq, List.countP_map]
  rfl

/-- The supported languages among the files whose parsers are out. -/
def Services.waitedFor (s : Services) (files : List SourceFile) : List String :=
  (supportedLanguages files).filter s.pool.isHeld

/-- What a batch reports, up to the order of its groups. -/
def Services.batchReports (s : Services) (files : List SourceFile) : List Report :=
  (files.filter SourceFile.isUnsupported).map SourceFile.report ++
    (s.waitedFor files).map unavailableReport

theorem Services.waitedFor_eq (s : Services) (files : List SourceFile) :
    s.waitedFor files =
      (files.map fun file => Detection.keyOf file.path).dedup.filter s.isWaitedFor := by
  rw [waitedFor, supportedLanguages, List.filter_filter]
  exact List.filter_congr fun language _ => Bool.and_comm _ _

/-- What a batch adds to the counters: each file that is not supported counts once under its language
and as an extraction, each language whose parser is out counts once under its name and as a checkout,
and no other key changes. -/
structure Services.Accounts (s t : Services) (files : List SourceFile) : Prop where
  total : t.log.total =
    s.log.total + (files.filter SourceFile.isUnsupported).length + (s.waitedFor files).length
  byLanguage : s.log.byLanguage.Grows t.log.byLanguage
    (((files.filter SourceFile.isUnsupported).map fun file => Detection.keyOf file.path) ++
      s.waitedFor files).count
  byOperation : s.log.byOperation.Grows t.log.byOperation
    (List.replicate (files.filter SourceFile.isUnsupported).length
        "block_extractor.extract_blocks" ++
      List.replicate (s.waitedFor files).length "resource_manager.acquire_resources").count
  pool : s.pool.Spends t.pool (supportedLanguages files).length (s.waitedFor files).length

theorem Services.languageKeys_batchReports (s : Services) (files : List SourceFile) :
    (s.batchReports files).map (fun r => r.origin.languageKey) =
      ((files.filter SourceFile.isUnsupported).map fun file => Detection.keyOf file.path) ++
        s.waitedFor files := by
  rw [batchReports, List.map_append, List.map_map, List.map_map]
  exact congrArg _ (List.map_id _)

theorem Services.operationKeys_batchReports (s : Services) (files : List SourceFile) :
    (s.batchReports files).map (fun r => r.origin.operationKey) =
      List.replicate (files.filter SourceFile.isUnsupported).length
          "block_extractor.extract_blocks" ++
        List.replicate (s.waitedFor files).length "resource_manager.acquire_resources" := by
  rw [batchReports, List.map_append, List.map_map, List.map_map, ← List.map_const',
    ← List.map_const']
  rfl

theorem Services.Charges.accounts {s t : Services} {files : List SourceFile}
    {reports : List Report} (hreports : reports.Perm (s.batchReports files))
    (h : s.Charges t reports (supportedLanguages files).length (s.waitedFor files).length) :
    s.Accounts t files where
  total := by
    rw [h.log, FailureLog.total_recordAll, hreports.length_eq, batchReports, List.length_append,
      List.length_map, List.length_map, Nat.add_assoc]
  byLanguage := by
    have hkeys := funext (hreports.map fun r => r.origin.languageKey).count_eq
    rw [languageKeys_batchReports] at hkeys
    rw [h.log, ← hkeys]
    exact s.log.grows_byLanguage reports
  byOperation := by
    have hkeys := funext (hreports.map fun r => r.origin.operationKey).count_eq
    rw [operationKeys_batchReports] at hkeys
    rw [h.log, ← hkeys]
    exact s.log.grows_byOperation reports
  pool := h.pool

/-- Groups of all files, in any order, add the same to the counters. -/
theorem GroupsOf.accounts {env : Environment} {s : Services} {files : List SourceFile}
    {groups : List LanguageGroup} (h : GroupsOf files groups)
    (hfiles : ∀ g ∈ groups, g.files ≠ []) (hvalid : env.settings.invalid? = none)
    (hcatalogue : env.compiler.TakesCatalogue) (hs : s.Sound env.compiler) :
    s.Accounts (s.processGroups env groups .empty).2 files := by
  have hcharges := Services.charges_processGroups hvalid hcatalogue hs groups
    (fun g hg file hfile => h.keyOf_eq hg hfile) .empty (.refl hs)
  rw [h.countP_language hfiles Language.hasGrammar, h.countP_language hfiles s.isWaitedFor,
    ← Services.waitedFor_eq] at hcharges
  refine hcharges.accounts ((Services.flatMap_groupReports_perm s groups).trans ?_)
  have hunsupported := (h.all.filter SourceFile.isUnsupported).map SourceFile.report
  have hwaited := ((h.languages_perm hfiles).filter s.isWaitedFor).map unavailableReport
  rw [Services.batchReports, Services.waitedFor_eq]
  exact hunsupported.append hwaited

namespace Engine

/-- After any history, a batch adds to the counters what its files come to, and it gives back every
parser that it takes; its groups may be worked on in any order. -/
theorem processBatch_accounts (env : Environment) (hvalid : env.settings.invalid? = none)
    (hcatalogue : env.compiler.TakesCatalogue) (history : List Operation)
    (files : List SourceFile) :
    let st := ((opened env).run env history).session
    Session.start env = .ok (Session.opened env) ∧
      st.services.Accounts (st.processBatch env files).2.services files ∧
      (∀ order, order.Perm (st.groupFiles files []).1 →
        st.services.Accounts (st.services.processGroups env order .empty).2 files) := by
  intro st
  have hst : st.Sound env.compiler := (good_run_opened hvalid history).session
  obtain ⟨hgroups, hservices, -⟩ :=
    groupsOf_groupFiles files hst.detector GroupsOf.nil List.Pairwise.nil
  have hfiles : ∀ g ∈ (st.groupFiles files []).1, g.files ≠ [] :=
    files_groupFiles_ne_nil files List.Pairwise.nil fun g hg => absurd hg List.not_mem_nil
  have hany : ∀ order, order.Perm (st.groupFiles files []).1 →
      st.services.Accounts (st.services.processGroups env order .empty).2 files :=
    fun order horder => (hgroups.reorder horder).accounts
      (fun g hg => hfiles g (horder.subset hg)) hvalid hcatalogue hst.services
  refine ⟨Session.start_eq_ok hvalid, ?_, hany⟩
  simp only [Session.processBatch, List.partition_eq_filter_filter, hservices]
  exact hany _ (List.filter_append_perm env.settings.runsBeside _)

/-- A file whose parser is out, one that has its parser, and three of no supported language, one of
them blank. -/
def chargedBatch : List SourceFile :=
  let tree : Node := .mk ⟨0, "module", none, true, ⟨0, 0, 0⟩, ⟨4, 0, 4⟩⟩ []
  [⟨⟨"a.py", "1", "pass"⟩, tree⟩, ⟨⟨"notes", "2", "text"⟩, tree⟩, ⟨⟨"b.go", "3", "pass"⟩, tree⟩,
    ⟨⟨"blank", "4", " "⟩, tree⟩, ⟨⟨"more", "5", "text"⟩, tree⟩]

/-- With one parser out, the batch makes three reports and two checkouts. -/
theorem processBatch_accounts_chargedBatch :
    let env : Environment := ⟨{ preload := [] }, Catalogue.compiler, id⟩
    let st := ((opened env).run env [.acquire "python"]).session
    let after := (st.processBatch env chargedBatch).2.services
    (env.settings.invalid? = none ∧ env.compiler.TakesCatalogue) ∧
      st.services.Accounts after chargedBatch ∧
      after.log.total = st.services.log.total + 2 + 1 ∧
      after.pool.acquisitions = st.services.pool.acquisitions + 2 := by
  intro env
  have hvalid : env.settings.invalid? = none := by decide
  have hcatalogue : env.compiler.TakesCatalogue := Catalogue.compiler_takesCatalogue
  obtain ⟨-, haccounts, -⟩ :=
    processBatch_accounts env hvalid hcatalogue [.acquire "python"] chargedBatch
  have hunsupported : (chargedBatch.filter SourceFile.isUnsupported).length = 2 := by
    decide +kernel
  have hwaited : (((opened env).run env [.acquire "python"]).session.services.waitedFor
      chargedBatch).length = 1 := by decide +kernel
  have hsupported : (supportedLanguages chargedBatch).length = 2 := by decide +kernel
  -- no names for the states: comparing two of them through a name would run the batch
  dsimp only
  refine ⟨⟨hvalid, hcatalogue⟩, haccounts, ?_, ?_⟩
  · rw [haccounts.total, hunsupported, hwaited]
  · rw [haccounts.pool.acquisitions, hsupported]

end Engine

end SourceBlocks
