import SourceBlocks.Engine.Batch

/-! # What a batch collects

The outcome of a batch is built up file by file. A path that occurs more than once keeps the blocks
of its last file. -/

namespace SourceBlocks

def lastAt (path : String) (files : List SourceFile) : Option SourceFile :=
  (files.filter fun file => file.path == path).getLast?

theorem lastAt_cons (path : String) (file : SourceFile) (files : List SourceFile) :
    lastAt path (file :: files) =
      if file.path = path then some ((lastAt path files).getD file) else lastAt path files := by
  rw [lastAt, List.filter_cons]
  by_cases h : file.path = path
  · simp [h, lastAt, List.getLast?_cons]
  · simp [h, lastAt]

namespace BatchOutcome

theorem lookup_put (path : String) (blocks : List Block) (other : String)
    (results : List (String × List Block)) :
    (put path blocks results).lookup other =
      if other = path then some blocks else results.lookup other := by
  induction results with
  | nil =>
    by_cases h : other = path
    · simp [put, h]
    · simp [put, h, List.lookup_cons, beq_eq_false_iff_ne.2 h]
  | cons entry rest ih =>
    obtain ⟨key, old⟩ := entry
    rw [put]
    by_cases hkey : key = path
    · subst hkey
      rw [if_pos rfl]
      by_cases h : other = key
      · simp [h]
      · simp [h, List.lookup_cons, beq_eq_false_iff_ne.2 h]
    · rw [if_neg hkey, List.lookup_cons, List.lookup_cons, ih]
      by_cases h : other = key
      · subst h
        simp [hkey]
      · simp [beq_eq_false_iff_ne.2 h]

theorem keys_put (path : String) (blocks : List Block) (results : List (String × List Block)) :
    (put path blocks results).map Prod.fst =
      if path ∈ results.map Prod.fst then results.map Prod.fst
      else results.map Prod.fst ++ [path] := by
  induction results with
  | nil => simp [put]
  | cons entry rest ih =>
    obtain ⟨key, old⟩ := entry
    rw [put]
    by_cases hkey : key = path
    · simp [hkey]
    · rw [if_neg hkey, List.map_cons, List.map_cons, ih]
      by_cases h : path ∈ rest.map Prod.fst
      · simp [h]
      · simp [h, Ne.symm hkey]

/-- The outcome with more files, each worked on with some blocks or failed. -/
def addAll (answer : SourceFile → Option (List Block)) (files : List SourceFile)
    (o : BatchOutcome) : BatchOutcome :=
  files.foldl (fun o file => o.add file.path (answer file)) o

theorem addAll_append (answer : SourceFile → Option (List Block)) (files more : List SourceFile)
    (o : BatchOutcome) :
    addAll answer (files ++ more) o = addAll answer more (addAll answer files o) :=
  List.foldl_append

variable (answer : SourceFile → Option (List Block)) (files : List SourceFile)

theorem succeeded_addAll :
    ∀ o : BatchOutcome, (addAll answer files o).succeeded = o.succeeded := by
  induction files with
  | nil => intro o; rfl
  | cons file rest ih => intro o; exact ih _

/-- Each file counts once, as worked on or as failed. -/
theorem counts_addAll :
    ∀ o : BatchOutcome,
      (addAll answer files o).failed =
          o.failed + files.countP (fun file => (answer file).isNone) ∧
        (addAll answer files o).processed + (addAll answer files o).failed =
          o.processed + o.failed + files.length := by
  induction files with
  | nil => intro o; exact ⟨rfl, rfl⟩
  | cons file rest ih =>
    intro o
    obtain ⟨hfailed, hall⟩ := ih (o.add file.path (answer file))
    rw [addAll, List.foldl_cons, ← addAll, hall, hfailed, List.countP_cons, List.length_cons, add]
    cases answer file with
    | none =>
      refine ⟨?_, ?_⟩
      · simp
        omega
      · simp
        omega
    | some blocks =>
      refine ⟨?_, ?_⟩
      · simp
      · simp
        omega

/-- A path has what was answered for its last file. -/
theorem lookup_addAll (path : String) :
    ∀ o : BatchOutcome, (addAll answer files o).results.lookup path =
      ((lastAt path files).map fun file => (answer file).getD []).or (o.results.lookup path) := by
  induction files with
  | nil => intro o; rfl
  | cons file rest ih =>
    intro o
    rw [addAll, List.foldl_cons, ← addAll, ih, lastAt_cons, add]
    dsimp only
    rw [lookup_put]
    by_cases h : file.path = path
    · subst h
      cases lastAt file.path rest with
      | none => simp
      | some last => simp
    · simp [h, Ne.symm h]

theorem mem_keys_addAll (path : String) :
    ∀ o : BatchOutcome, path ∈ (addAll answer files o).results.map Prod.fst ↔
      path ∈ o.results.map Prod.fst ∨ ∃ file ∈ files, file.path = path := by
  induction files with
  | nil => intro o; simp [addAll]
  | cons file rest ih =>
    intro o
    have hput : path ∈ (put file.path ((answer file).getD []) o.results).map Prod.fst ↔
        path ∈ o.results.map Prod.fst ∨ file.path = path := by
      rw [keys_put]
      split
      case isTrue hmem =>
        exact ⟨Or.inl, fun h => h.elim id (· ▸ hmem)⟩
      case isFalse hnew =>
        rw [List.mem_append, List.mem_singleton, eq_comm (a := path)]
    rw [addAll, List.foldl_cons, ← addAll, ih, add, hput, or_assoc]
    simp

theorem nodup_keys_addAll :
    ∀ {o : BatchOutcome}, (o.results.map Prod.fst).Nodup →
      ((addAll answer files o).results.map Prod.fst).Nodup := by
  induction files with
  | nil => exact id
  | cons file rest ih =>
    intro o h
    apply ih
    rw [show (o.add file.path (answer file)).results = put file.path _ o.results from rfl,
      keys_put]
    split
    case isTrue => exact h
    case isFalse hnew =>
      rw [List.nodup_append]
      refine ⟨h, by simp, fun a ha b hb => ?_⟩
      rw [List.mem_singleton.1 hb]
      exact fun hab => hnew (hab ▸ ha)

end BatchOutcome

end SourceBlocks
