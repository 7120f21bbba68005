import SourceBlocks.Proofs.Engine.Outcome
import SourceBlocks.Proofs.Language.Detection

/-! # Files by language

Each file of a batch is in one group, that of the language its path has, and the files of a group
are in the order of the batch. -/

namespace SourceBlocks

/-- The language that a path is worked on as. -/
def Detection.keyOf (path : String) : String := (languageOf? path).getD unknownLanguage

/-- Groups are in increasing order of their languages, each once. -/
def SortedGroups (groups : List LanguageGroup) : Prop :=
  groups.Pairwise fun g h => g.language < h.language

/-- A file makes a group for its language if there is none, and leaves the other groups alone. -/
theorem mem_addToGroup {language : String} {file : SourceFile} {groups : List LanguageGroup}
    (h : SortedGroups groups) (g : LanguageGroup) :
    g ∈ addToGroup language file groups ↔
      (g ∈ groups ∧ g.language ≠ language) ∨
      (∃ old ∈ groups, old.language = language ∧ g = ⟨language, old.files ++ [file]⟩) ∨
      ((∀ old ∈ groups, old.language ≠ language) ∧ g = ⟨language, [file]⟩) := by
  induction groups with
  | nil => simp [addToGroup]
  | cons first rest ih =>
    obtain ⟨hfirst, hrest⟩ := List.pairwise_cons.1 h
    have hne : ∀ old ∈ rest, old.language ≠ first.language :=
      fun old hold heq => String.lt_irrefl _ (heq ▸ hfirst old hold)
    rw [addToGroup]
    by_cases hsame : first.language = language
    · rw [if_pos hsame]
      grind
    · rw [if_neg hsame]
      by_cases hbefore : language < first.language
      · rw [if_pos hbefore]
        have hnone : ∀ old ∈ rest, old.language ≠ language :=
          fun old hold heq => String.lt_asymm hbefore (heq ▸ hfirst old hold)
        grind
      · rw [if_neg hbefore, List.mem_cons, ih hrest]
        grind

theorem sortedGroups_addToGroup (language : String) (file : SourceFile)
    {groups : List LanguageGroup} (h : SortedGroups groups) :
    SortedGroups (addToGroup language file groups) := by
  induction groups with
  | nil => exact List.pairwise_singleton _ _
  | cons first rest ih =>
    obtain ⟨hfirst, hrest⟩ := List.pairwise_cons.1 h
    rw [addToGroup]
    by_cases hsame : first.language = language
    · rw [if_pos hsame]
      exact List.pairwise_cons.2 ⟨fun g hg => hsame ▸ hfirst g hg, hrest⟩
    · rw [if_neg hsame]
      by_cases hbefore : language < first.language
      · rw [if_pos hbefore]
        refine List.pairwise_cons.2 ⟨fun g hg => ?_, h⟩
        rcases List.mem_cons.1 hg with rfl | hin
        · exact hbefore
        · exact String.lt_trans hbefore (hfirst g hin)
      · rw [if_neg hbefore]
        have hafter : first.language < language := by
          rw [← String.not_le]
          exact fun hle => hsame (String.le_antisymm (String.not_lt.1 hbefore) hle)
        refine List.pairwise_cons.2 ⟨fun g hg => ?_, ih hrest⟩
        rcases (mem_addToGroup hrest g).1 hg with ⟨hin, -⟩ | ⟨old, -, -, rfl⟩ | ⟨-, rfl⟩
        · exact hfirst g hin
        · exact hafter
        · exact hafter

theorem files_addToGroup_perm (language : String) (file : SourceFile)
    (groups : List LanguageGroup) :
    ((addToGroup language file groups).flatMap LanguageGroup.files).Perm
      (groups.flatMap LanguageGroup.files ++ [file]) := by
  induction groups with
  | nil => exact .refl _
  | cons first rest ih =>
    rw [addToGroup]
    split
    · simp only [List.flatMap_cons, List.append_assoc]
      exact List.perm_append_comm.append_left _
    · split
      · simp only [List.flatMap_cons]
        exact List.perm_append_comm
      · simp only [List.flatMap_cons, List.append_assoc]
        exact ih.append_left _

/-- Groups of the files of a batch: each language once, with all of its files in order. -/
structure GroupsOf (files : List SourceFile) (groups : List LanguageGroup) : Prop where
  once : (groups.map LanguageGroup.language).Nodup
  all : (groups.flatMap LanguageGroup.files).Perm files
  files_eq : ∀ g ∈ groups,
    g.files = files.filter fun file => Detection.keyOf file.path == g.language

namespace GroupsOf

variable {files : List SourceFile} {groups order : List LanguageGroup}

theorem reorder (h : GroupsOf files groups) (horder : order.Perm groups) :
    GroupsOf files order where
  once := (horder.map _).nodup_iff.2 h.once
  all := (horder.flatMap_right _).trans h.all
  files_eq g hg := h.files_eq g (horder.subset hg)

theorem keyOf_eq (h : GroupsOf files groups) {g : LanguageGroup} (hg : g ∈ groups)
    {file : SourceFile} (hfile : file ∈ g.files) : Detection.keyOf file.path = g.language := by
  rw [h.files_eq g hg] at hfile
  simpa using (List.mem_filter.1 hfile).2

theorem nil : GroupsOf [] [] where
  once := List.Pairwise.nil
  all := .refl _
  files_eq _ h := absurd h List.not_mem_nil

theorem filter_eq_nil (h : GroupsOf files groups) {language : String}
    (hnone : ∀ g ∈ groups, g.language ≠ language) :
    files.filter (fun file => Detection.keyOf file.path == language) = [] := by
  rw [List.filter_eq_nil_iff]
  intro file hfile hkey
  obtain ⟨g, hg, hin⟩ := List.mem_flatMap.1 (h.all.mem_iff.2 hfile)
  exact hnone g hg ((h.keyOf_eq hg hin).symm.trans (by simpa using hkey))

theorem add (h : GroupsOf files groups) (hsorted : SortedGroups groups) (file : SourceFile) :
    GroupsOf (files ++ [file]) (addToGroup (Detection.keyOf file.path) file groups) where
  once := by
    rw [List.Nodup, List.pairwise_map]
    refine (sortedGroups_addToGroup _ file hsorted).imp fun hlt heq => ?_
    rw [heq] at hlt
    exact String.lt_irrefl _ hlt
  all := (files_addToGroup_perm _ file groups).trans (h.all.append_right _)
  files_eq g hg := by
    rw [List.filter_append]
    rcases (mem_addToGroup hsorted g).1 hg with ⟨hin, hother⟩ | ⟨old, hin, hlanguage, rfl⟩ |
      ⟨hnone, rfl⟩
    · simp [h.files_eq g hin, Ne.symm hother]
    · rw [h.files_eq old hin, hlanguage]
      simp
    · rw [h.filter_eq_nil hnone]
      simp

/-- What is picked from one group only is picked from the group of its language. -/
theorem filter_flatMap_eq {p : SourceFile → Bool} {language : String} {picked : List SourceFile} :
    ∀ {groups : List LanguageGroup}, (groups.map LanguageGroup.language).Nodup →
      (∀ g ∈ groups, g.files.filter p = if g.language = language then picked else []) →
        (groups.flatMap LanguageGroup.files).filter p =
          if ∃ g ∈ groups, g.language = language then picked else []
  | [], _, _ => by simp
  | g :: rest, hnodup, hpicked => by
    rw [List.map_cons, List.nodup_cons] at hnodup
    have ih := filter_flatMap_eq hnodup.2 fun g' hg' => hpicked g' (List.mem_cons_of_mem _ hg')
    rw [List.flatMap_cons, List.filter_append, ih, hpicked g List.mem_cons_self]
    -- languages occur once, so that after the group of the language nothing more is picked
    by_cases hlanguage : g.language = language
    · have hrest : ¬ ∃ g' ∈ rest, g'.language = language := by
        rintro ⟨g', hg', heq⟩
        exact hnodup.1 (List.mem_map.2 ⟨g', hg', heq.trans hlanguage.symm⟩)
      simp [hlanguage, hrest]
    · simp [hlanguage]

/-- All files of one path are in one group, in the order of the batch. -/
theorem lastAt_eq (h : GroupsOf files groups) (path : String) :
    lastAt path (groups.flatMap LanguageGroup.files) = lastAt path files := by
  have hpicked : ∀ g ∈ groups, (g.files.filter fun file => file.path == path) =
      if g.language = Detection.keyOf path then files.filter fun file => file.path == path
      else [] := by
    intro g hg
    rw [h.files_eq g hg, List.filter_filter]
    split
    case isTrue hlanguage =>
      refine List.filter_congr fun file _ => ?_
      by_cases hpath : file.path = path
      · simp [hpath, hlanguage]
      · simp [hpath]
    case isFalse hlanguage =>
      rw [List.filter_eq_nil_iff]
      intro file _ hboth
      simp only [Bool.and_eq_true, beq_iff_eq] at hboth
      exact hlanguage (hboth.2.symm.trans (congrArg Detection.keyOf hboth.1))
  rw [lastAt, lastAt, filter_flatMap_eq h.once hpicked]
  split
  case isTrue => rfl
  case isFalse hnone =>
    have hempty := h.filter_eq_nil fun g hg heq => hnone ⟨g, hg, heq⟩
    rw [List.filter_eq_nil_iff] at hempty
    have hnopath : (files.filter fun file => file.path == path) = [] := by
      rw [List.filter_eq_nil_iff]
      intro file hfile hpath
      exact hempty file hfile (by simp [beq_iff_eq.1 hpath])
    rw [hnopath]

end GroupsOf

/-- Grouping asks the detector for each file and touches nothing else. -/
theorem groupsOf_groupFiles (files : List SourceFile) :
    ∀ {st : Session} {before : List SourceFile} {groups : List LanguageGroup},
      st.detector.Sound → GroupsOf before groups → SortedGroups groups →
        GroupsOf (before ++ files) (st.groupFiles files groups).1 ∧
          (st.groupFiles files groups).2.services = st.services ∧
          (st.groupFiles files groups).2.detector.Sound := by
  induction files with
  | nil =>
    intro st before groups hmemo hgroups _
    rw [List.append_nil]
    exact ⟨hgroups, rfl, hmemo⟩
  | cons file rest ih =>
    intro st before groups hmemo hgroups hsorted
    obtain ⟨hlanguage, hsound⟩ := hmemo.detect file.path
    have hkey : ((st.detect file.path).1).getD unknownLanguage = Detection.keyOf file.path :=
      congrArg (Option.getD · unknownLanguage) hlanguage
    rw [Session.groupFiles]
    dsimp only
    rw [hkey, List.append_cons]
    exact ih hsound (hgroups.add hsorted file) (sortedGroups_addToGroup _ file hsorted)

end SourceBlocks
