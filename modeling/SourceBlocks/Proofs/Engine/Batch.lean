import SourceBlocks.Proofs.Block.Bounding
import SourceBlocks.Proofs.Engine.Groups
import SourceBlocks.Proofs.Extraction.Stateless
import SourceBlocks.Proofs.Settings.Tuning

/-! # What a batch answers for a file

A file in a batch gets the blocks that it would get on its own, whatever is worked on before it.
Only files whose parser is out fail, all of a language at once. -/

namespace SourceBlocks

namespace Services

/-- The file is of a language with a grammar, and the parser of that language is out. -/
def lacksParser (s : Services) (file : SourceFile) : Bool :=
  Language.hasGrammar (Detection.keyOf file.path) && s.pool.isHeld (Detection.keyOf file.path)

/-- The blocks that the file gives on its own. -/
def ownBlocks (s : Services) (env : Environment) (file : SourceFile) : List Block :=
  (s.extract env (Detection.keyOf file.path) file).1.blocks

/-- What a batch answers for the file: its own blocks unless its parser is out. -/
def answerFor (s : Services) (env : Environment) (file : SourceFile) : Option (List Block) :=
  if s.lacksParser file then none else some (s.ownBlocks env file)

variable {env : Environment} {s t : Services}

/-- A file whose parser is out has no blocks on its own either. -/
theorem ownBlocks_eq_nil (h : s.Sound env.compiler) {file : SourceFile}
    (hlacks : s.lacksParser file = true) : s.ownBlocks env file = [] := by
  obtain ⟨hgrammar, hheld⟩ := Bool.and_eq_true_iff.1 hlacks
  rw [ownBlocks, extract_eq_extractFromRoot h]
  cases hblank : Text.isBlankText file.text with
  | false => rw [if_pos ⟨rfl, hgrammar, hheld⟩]; rfl
  | true =>
    rw [if_neg (by simp), extractFromRoot_blocks, if_neg (by simp [hblank])]

theorem answerFor_getD (h : s.Sound env.compiler) (file : SourceFile) :
    (s.answerFor env file).getD [] = s.ownBlocks env file := by
  rw [answerFor]
  split
  case isTrue hlacks => exact (ownBlocks_eq_nil h hlacks).symm
  case isFalse => rfl

/-- The plan of a group takes no blocks from a file. -/
theorem keepBlocks_extractFromRoot (hvalid : env.settings.invalid? = none) (s : Services)
    (language : String) (count : Nat) (file : SourceText) (root : Node) :
    keepBlocks (env.settings.groupPlan language count)
        (s.extractFromRoot env language file root).1 =
      some (s.extractFromRoot env language file root).1.blocks := by
  rw [keepBlocks, extractFromRoot_succeeded, if_pos rfl, extractFromRoot_blocks]
  split
  case isTrue =>
    exact congrArg some (List.take_of_length_le
      (length_boundBlocks_le (Settings.maxBlocks_tuning_pos hvalid language) _))
  case isFalse => rw [List.take_nil]

/-- A file that has its parser gives the same in any sound state, and the plan of its group takes
nothing from it. -/
theorem keepBlocks_eq_answerFor (hvalid : env.settings.invalid? = none)
    (hs : s.Sound env.compiler) (ht : t.Sound env.compiler) (parallel : Bool)
    (clock : Nat → Nat) {file : SourceFile} (hfree : s.lacksParser file = false) (count : Nat) :
    keepBlocks (env.settings.groupPlan (Detection.keyOf file.path) count)
        (t.extractFromRoot (env.rerun parallel clock) (Detection.keyOf file.path)
          file.toSourceText file.tree).1 =
      s.answerFor env file := by
  have hown : s.ownBlocks env file = (s.extractFromRoot env (Detection.keyOf file.path)
      file.toSourceText file.tree).1.blocks := by
    rw [ownBlocks, extract_eq_extractFromRoot hs, if_neg]
    rintro ⟨-, hgrammar, hheld⟩
    simp [lacksParser, hgrammar, hheld] at hfree
  rw [← extractFromRoot_eq parallel clock hs ht, keepBlocks_extractFromRoot hvalid, answerFor,
    hfree, hown]
  rfl

/-- Files are worked on one by one; what each leaves for the next does not show in the answers. -/
theorem processFiles_eq {plan : GroupPlan}
    {extractFile : Services → SourceFile → Extraction × Services}
    {answer : SourceFile → Option (List Block)} {P : Services → Prop} (files : List SourceFile)
    (step : ∀ file ∈ files, ∀ s, P s → keepBlocks plan (extractFile s file).1 = answer file ∧
      P (extractFile s file).2) :
    ∀ {s : Services} (o : BatchOutcome), P s →
      (processFiles plan extractFile s files o).1 = BatchOutcome.addAll answer files o ∧
        P (processFiles plan extractFile s files o).2 := by
  induction files with
  | nil => exact fun o h => ⟨rfl, h⟩
  | cons file rest ih =>
    intro s o h
    obtain ⟨hanswer, hnext⟩ := step file List.mem_cons_self s h
    rw [processFiles]
    dsimp only
    rw [hanswer]
    exact ih (fun f hf => step f (List.mem_cons_of_mem _ hf)) _ hnext

theorem lacksParser_eq {file : SourceFile} {language : String}
    (h : Detection.keyOf file.path = language) (s : Services) :
    s.lacksParser file = (Language.hasGrammar language && s.pool.isHeld language) := by
  rw [lacksParser, h]

theorem foldl_add_none {answer : SourceFile → Option (List Block)} (files : List SourceFile)
    (h : ∀ file ∈ files, answer file = none) :
    ∀ o : BatchOutcome,
      files.foldl (fun o file => o.add file.path none) o = BatchOutcome.addAll answer files o := by
  induction files with
  | nil => intro o; rfl
  | cons file rest ih =>
    intro o
    rw [List.foldl_cons, ih fun f hf => h f (List.mem_cons_of_mem _ hf), BatchOutcome.addAll,
      BatchOutcome.addAll, List.foldl_cons, h file List.mem_cons_self]

section Group

variable (hvalid : env.settings.invalid? = none) (hs : s.Sound env.compiler)
  (ht : s.Resumes env.compiler t) (parallel : Bool) (clock : Nat → Nat)
include hvalid hs ht

theorem processFiles_extract {language : String} (count : Nat) {files : List SourceFile}
    (hkey : ∀ file ∈ files, Detection.keyOf file.path = language)
    (hgrammar : Language.hasGrammar language = false) (o : BatchOutcome) :
    let after := t.processFiles (env.settings.groupPlan language count)
      (fun u file => u.extract (env.rerun parallel clock) language file) files o
    after.1 = BatchOutcome.addAll (s.answerFor env) files o ∧ s.Resumes env.compiler after.2 := by
  refine processFiles_eq (P := s.Resumes env.compiler) files ?_ o ht
  intro file hfile u hu
  have hsound := hu.sound.rerun parallel clock
  have hfree : s.lacksParser file = false := by
    rw [lacksParser_eq (hkey file hfile), hgrammar, Bool.false_and]
  constructor
  · rw [extract_eq_extractFromRoot hsound, if_neg (by simp [hgrammar]), ← hkey file hfile]
    exact keepBlocks_eq_answerFor hvalid hs hu.sound parallel clock hfree count
  · exact hu.trans (resumes_extract hsound language file)

theorem processFiles_extractParsed {language : String} (count : Nat) {files : List SourceFile}
    (hkey : ∀ file ∈ files, Detection.keyOf file.path = language)
    (hin : s.pool.isHeld language = false) (o : BatchOutcome) :
    let after := (t.checkout language).processFiles (env.settings.groupPlan language count)
      (fun u file => u.extractParsed (env.rerun parallel clock) language file) files o
    after.1 = BatchOutcome.addAll (s.answerFor env) files o ∧
      (t.checkout language).Keeps env.compiler after.2 := by
  have htaken := ht.sound.checkout language
  refine processFiles_eq (P := (t.checkout language).Keeps env.compiler) files ?_ o (.refl htaken)
  intro file hfile u hu
  have hsound := hu.sound htaken
  have hfree : s.lacksParser file = false := by
    rw [lacksParser_eq (hkey file hfile), hin, Bool.and_false]
  rw [extractParsed_eq_extractFromRoot]
  constructor
  · rw [← hkey file hfile]
    exact keepBlocks_eq_answerFor hvalid hs hsound parallel clock hfree count
  · exact hu.trans (keeps_extractFromRoot (hsound.rerun parallel clock) language
      file.toSourceText file.tree)

/-- A group answers for its files as the services did before the batch, and leaves the parsers where
they were. -/
theorem processGroup_eq {group : LanguageGroup}
    (hkey : ∀ file ∈ group.files, Detection.keyOf file.path = group.language)
    (o : BatchOutcome) :
    let after := t.processGroup (env.rerun parallel clock) group o
    after.1 = BatchOutcome.addAll (s.answerFor env) group.files o ∧
      s.Resumes env.compiler after.2 := by
  have hneeds : (((env.rerun parallel clock).settings.groupPlan group.language
        group.files.length).sharesParser &&
      ((env.rerun parallel clock).settings.tuning group.language).hasStructuralSupport) =
      Language.hasGrammar group.language := Settings.hasStructuralSupport_tuning _ _
  rw [processGroup]
  dsimp only
  rw [hneeds]
  cases hgrammar : Language.hasGrammar group.language with
  | false => exact processFiles_extract hvalid hs ht parallel clock _ hkey hgrammar o
  | true =>
    have hheld := ht.pool.held group.language
    rw [if_pos rfl]
    cases hlease : (t.pool.acquire group.language).lease with
    | error failure =>
      -- with a grammar at hand the parser can only be out, for every file of the group
      obtain ⟨hwhy, hresumes⟩ := ParserPool.acquire_error ht.pool.inRange hlease
      have hout : s.pool.isHeld group.language = true :=
        hheld.symm.trans (hwhy.resolve_right (by simp [hgrammar]))
      simp only [acquire_of_error hlease]
      constructor
      · refine foldl_add_none group.files (fun file hfile => ?_) o
        rw [answerFor, lacksParser_eq (hkey file hfile), hgrammar, hout]
        rfl
      · exact ht.trans ⟨ht.cache, hresumes⟩
    | ok lease =>
      have hin : s.pool.isHeld group.language = false :=
        hheld.symm.trans (ParserPool.acquire_ok ht.pool.inRange hlease).1
      simp only [acquire_of_ok hlease]
      obtain ⟨houtcome, hkept⟩ := processFiles_extractParsed hvalid hs ht parallel clock
        group.files.length hkey hin o
      exact ⟨houtcome, ht.trans (resumes_release ht.sound hlease hkept)⟩

end Group

theorem processGroups_eq (hvalid : env.settings.invalid? = none) (hs : s.Sound env.compiler)
    (parallel : Bool) (clock : Nat → Nat) (groups : List LanguageGroup)
    (hkey : ∀ group ∈ groups, ∀ file ∈ group.files,
      Detection.keyOf file.path = group.language) :
    ∀ {t : Services} (o : BatchOutcome), s.Resumes env.compiler t →
      (t.processGroups (env.rerun parallel clock) groups o).1 =
          BatchOutcome.addAll (s.answerFor env) (groups.flatMap LanguageGroup.files) o ∧
        s.Resumes env.compiler (t.processGroups (env.rerun parallel clock) groups o).2 := by
  induction groups with
  | nil => exact fun o h => ⟨rfl, h⟩
  | cons group rest ih =>
    intro t o ht
    obtain ⟨houtcome, hnext⟩ := processGroup_eq hvalid hs ht parallel clock
      (hkey group List.mem_cons_self) o
    rw [processGroups]
    dsimp only
    rw [houtcome, List.flatMap_cons, BatchOutcome.addAll_append]
    exact ih (fun g hg => hkey g (List.mem_cons_of_mem _ hg)) _ hnext

end Services

/-- What a batch comes to: each path once, with the blocks that its last file gives on its own, and
as many failures as files lack their parser. -/
structure BatchOutcome.Answers (o : BatchOutcome) (s : Services) (env : Environment)
    (files : List SourceFile) : Prop where
  succeeded : o.succeeded = true
  all : o.processed + o.failed = files.length
  failed : o.failed = files.countP s.lacksParser
  paths : ∀ path, path ∈ o.results.map Prod.fst ↔ ∃ file ∈ files, file.path = path
  once : (o.results.map Prod.fst).Nodup
  blocks : ∀ path, o.results.lookup path = (lastAt path files).map (s.ownBlocks env)

namespace GroupsOf

variable {env : Environment} {s : Services} {files : List SourceFile}
  {groups : List LanguageGroup}

theorem answers (h : GroupsOf files groups) (hs : s.Sound env.compiler) :
    (BatchOutcome.addAll (s.answerFor env) (groups.flatMap LanguageGroup.files) .empty).Answers s
      env files := by
  obtain ⟨hfailed, hall⟩ := BatchOutcome.counts_addAll (s.answerFor env)
    (groups.flatMap LanguageGroup.files) .empty
  have hnone : ∀ file, (s.answerFor env file).isNone = s.lacksParser file := by
    intro file
    rw [Services.answerFor]
    cases s.lacksParser file <;> rfl
  constructor
  · exact BatchOutcome.succeeded_addAll ..
  · rw [hall, h.all.length_eq]
    simp [BatchOutcome.empty]
  · rw [hfailed, ← h.all.countP_eq]
    simp [hnone, BatchOutcome.empty]
  · intro path
    rw [BatchOutcome.mem_keys_addAll]
    simp [BatchOutcome.empty, h.all.mem_iff]
  · exact BatchOutcome.nodup_keys_addAll _ _ List.Pairwise.nil
  · intro path
    rw [BatchOutcome.lookup_addAll, h.lastAt_eq]
    simp [Services.answerFor_getD hs, BatchOutcome.empty]

/-- The groups of a batch may be worked on in any order. -/
theorem processGroups_answers (h : GroupsOf files groups) (hvalid : env.settings.invalid? = none)
    (hs : s.Sound env.compiler) (parallel : Bool) (clock : Nat → Nat) :
    let after := s.processGroups (env.rerun parallel clock) groups .empty
    after.1.Answers s env files ∧ s.Resumes env.compiler after.2 := by
  obtain ⟨houtcome, hresumes⟩ := Services.processGroups_eq hvalid hs parallel clock groups
    (fun g hg file hfile => h.keyOf_eq hg hfile) .empty (.refl hs)
  exact ⟨houtcome ▸ h.answers hs, hresumes⟩

end GroupsOf

/-- A batch answers for its files, and leaves parsers and languages as it found them. -/
theorem Session.processBatch_answers {env : Environment} {st : Session}
    (hvalid : env.settings.invalid? = none) (hs : st.services.Sound env.compiler)
    (hmemo : st.detector.Sound) (parallel : Bool) (clock : Nat → Nat) (files : List SourceFile) :
    let after := st.processBatch (env.rerun parallel clock) files
    after.1.Answers st.services env files ∧
      st.services.Resumes env.compiler after.2.services ∧ after.2.detector.Sound := by
  obtain ⟨hgroups, hservices, hdetector⟩ :=
    groupsOf_groupFiles files hmemo GroupsOf.nil List.Pairwise.nil
  have horder := hgroups.reorder
    (List.filter_append_perm (env.rerun parallel clock).settings.runsBeside _)
  have hanswers := horder.processGroups_answers hvalid hs parallel clock
  simp only [Session.processBatch, List.partition_eq_filter_filter, hservices]
  exact ⟨hanswers.1, hanswers.2, hdetector⟩

end SourceBlocks
