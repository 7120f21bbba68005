import Mathlib.Data.List.Dedup
import SourceBlocks.Engine.Basic
import SourceBlocks.Proofs.Engine.Groups

/-! # The entries of a batch

A batch has one entry for each path among its files, in any state and under any settings. Each file
is counted, but files of one path share an entry, in which only the last of them is left. -/

namespace SourceBlocks

/-- The outcome counts each of the files once and has an entry for each of their paths. -/
structure BatchOutcome.Collects (o : BatchOutcome) (files : List SourceFile) : Prop where
  once : (o.results.map Prod.fst).Nodup
  paths : ∀ path, path ∈ o.results.map Prod.fst ↔ ∃ file ∈ files, file.path = path
  all : o.processed + o.failed = files.length

namespace BatchOutcome.Collects

variable {o : BatchOutcome} {files : List SourceFile}

theorem empty : BatchOutcome.empty.Collects [] where
  once := List.Pairwise.nil
  paths := by simp [BatchOutcome.empty]
  all := rfl

theorem add (h : o.Collects files) (file : SourceFile) (blocks : Option (List Block)) :
    (o.add file.path blocks).Collects (files ++ [file]) where
  once := nodup_keys_addAll (fun _ => blocks) [file] h.once
  paths path := by
    have hkeys := mem_keys_addAll (fun _ => blocks) [file] path o
    rw [h.paths path] at hkeys
    refine hkeys.trans ?_
    simp [or_and_right, exists_or]
  all := by
    have hcounts := (counts_addAll (fun _ => blocks) [file] o).2
    rw [h.all] at hcounts
    rw [List.length_append]
    exact hcounts

theorem addNone (h : o.Collects files) (more : List SourceFile) :
    (more.foldl (fun o file => o.add file.path none) o).Collects (files ++ more) := by
  induction more generalizing o files with
  | nil => simpa using h
  | cons file rest ih =>
    rw [List.append_cons]
    exact ih (h.add file none)

theorem processFiles (h : o.Collects files) (plan : GroupPlan)
    (extractFile : Services → SourceFile → Extraction × Services) (more : List SourceFile)
    (s : Services) :
    (s.processFiles plan extractFile more o).1.Collects (files ++ more) := by
  induction more generalizing o files s with
  | nil => simpa [Services.processFiles] using h
  | cons file rest ih =>
    rw [List.append_cons]
    exact ih (h.add file _) _

/-- However a group fares, its files are counted and have entries. -/
theorem processGroup (h : o.Collects files) (s : Services) (env : Environment)
    (group : LanguageGroup) : (s.processGroup env group o).1.Collects (files ++ group.files) := by
  rw [Services.processGroup]
  dsimp only
  split
  case isTrue =>
    cases hlease : s.acquire group.language with
    | mk lease after =>
      cases lease with
      | none => exact h.addNone group.files
      | some lease => exact h.processFiles _ _ group.files after
  case isFalse => exact h.processFiles _ _ group.files s

theorem processGroups (h : o.Collects files) (env : Environment) (groups : List LanguageGroup)
    (s : Services) : (s.processGroups env groups o).1.Collects
      (files ++ groups.flatMap LanguageGroup.files) := by
  induction groups generalizing o files s with
  | nil => simpa [Services.processGroups] using h
  | cons group rest ih =>
    rw [List.flatMap_cons, ← List.append_assoc]
    exact ih (h.processGroup s env group) _

theorem perm {order : List SourceFile} (h : o.Collects order) (horder : order.Perm files) :
    o.Collects files where
  once := h.once
  paths path := by
    rw [h.paths path]
    simp [horder.mem_iff]
  all := h.all.trans horder.length_eq

/-- There are as many entries as there are paths. -/
theorem length_eq (h : o.Collects files) :
    o.results.length = (files.map fun file => file.path).dedup.length := by
  have hkeys : (o.results.map Prod.fst).Perm (files.map fun file => file.path).dedup := by
    apply (List.perm_ext_iff_of_nodup h.once (List.nodup_dedup _)).2
    intro path
    rw [h.paths path, List.mem_dedup, List.mem_map]
  rw [← List.length_map (f := Prod.fst)]
  exact hkeys.length_eq

end BatchOutcome.Collects

/-- Grouping keeps all files, whatever the detector says of their paths. -/
theorem files_groupFiles_perm (files : List SourceFile) :
    ∀ (st : Session) (groups : List LanguageGroup),
      ((st.groupFiles files groups).1.flatMap LanguageGroup.files).Perm
        (groups.flatMap LanguageGroup.files ++ files) := by
  induction files with
  | nil =>
    intro st groups
    rw [List.append_nil]
    exact .refl _
  | cons file rest ih =>
    intro st groups
    rw [Session.groupFiles, List.append_cons]
    exact (ih _ _).trans ((files_addToGroup_perm _ file groups).append_right rest)

theorem Session.processBatch_collects (st : Session) (env : Environment)
    (files : List SourceFile) : (st.processBatch env files).1.Collects files := by
  rw [processBatch]
  dsimp only
  rw [List.partition_eq_filter_filter]
  refine (BatchOutcome.Collects.empty.processGroups env _ _).perm ?_
  have horder := (List.filter_append_perm env.settings.runsBeside (st.groupFiles files []).1)
  rw [List.nil_append]
  exact (horder.flatMap_right _).trans (files_groupFiles_perm files st [])

theorem length_dedup_eq_iff {paths : List String} :
    paths.dedup.length = paths.length ↔ paths.Nodup := by
  rw [← List.dedup_eq_self]
  exact ⟨fun h => (List.dedup_sublist paths).eq_of_length h, fun h => congrArg List.length h⟩

namespace Session

/-- In any state and under any settings a batch counts each file once and has one entry for each path:
as many entries as files just when no path is repeated, and fewer otherwise. -/
theorem processBatch_entries (st : Session) (env : Environment) (files : List SourceFile) :
    let outcome := (st.processBatch env files).1
    let paths := files.map fun file => file.path
    (∀ path, path ∈ outcome.results.map Prod.fst ↔ path ∈ paths) ∧
      (outcome.results.map Prod.fst).Nodup ∧
      outcome.results.length = paths.dedup.length ∧
      (outcome.results.length = files.length ↔ paths.Nodup) ∧
      outcome.results.length ≤ files.length ∧
      outcome.processed + outcome.failed = files.length := by
  intro outcome paths
  have hcollects : outcome.Collects files := st.processBatch_collects env files
  have hlength : outcome.results.length = paths.dedup.length := hcollects.length_eq
  have hfiles : files.length = paths.length := (List.length_map _).symm
  refine ⟨fun path => ?_, hcollects.once, hlength, ?_, ?_, hcollects.all⟩
  · rw [hcollects.paths path, List.mem_map]
  · rw [hlength, hfiles]
    exact length_dedup_eq_iff
  · rw [hlength, hfiles]
    exact (List.dedup_sublist paths).length_le

/-- Two versions of a file under its one path. -/
def twoVersions : List SourceFile :=
  [{ path := "a.py", hash := "1", text := "pass"
     tree := .mk ⟨0, "module", none, true, ⟨0, 0, 0⟩, ⟨4, 0, 4⟩⟩
      [.mk ⟨1, "pass_statement", none, true, ⟨0, 0, 0⟩, ⟨4, 0, 4⟩⟩
        [.mk ⟨2, "pass", none, false, ⟨0, 0, 0⟩, ⟨4, 0, 4⟩⟩ []]] },
   { path := "a.py", hash := "2", text := "break"
     tree := .mk ⟨0, "module", none, true, ⟨0, 0, 0⟩, ⟨5, 0, 5⟩⟩
      [.mk ⟨1, "break_statement", none, true, ⟨0, 0, 0⟩, ⟨5, 0, 5⟩⟩
        [.mk ⟨2, "break", none, false, ⟨0, 0, 0⟩, ⟨5, 0, 5⟩⟩ []]] }]

/-- Both versions are worked on and there is one entry: the block of the first version is lost. -/
theorem processBatch_loses_version :
    let env : Environment := ⟨{ preload := [] }, Catalogue.compiler, id⟩
    let outcome := ((Session.opened env).processBatch env twoVersions).1
    env.settings.invalid? = none ∧ twoVersions.length = 2 ∧ outcome.processed = 2 ∧
      outcome.results.map (fun entry => (entry.1, entry.2.map Block.content)) =
        [("a.py", ["break"])] := by
  refine ⟨by decide, rfl, by decide +kernel, by decide +kernel⟩

end Session

end SourceBlocks
