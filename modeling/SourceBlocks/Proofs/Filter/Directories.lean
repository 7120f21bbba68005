import SourceBlocks.Filter.SkipPatterns
import SourceBlocks.Proofs.Text.Stretches
import SourceBlocks.Proofs.Text.Trimming

/-! # Directory patterns

A pattern that ends in a slash is compared with one segment of a path at a time. With one name it
matches the paths that have this segment; with several, one below the other, it matches no path, since
no segment holds a slash. -/

namespace SourceBlocks

namespace SkipPatterns

open Text (isSeparator stretches StandsAlone Respelled)

/-! ## Segments of a path -/

/-- What stands between slashes of either kind in a path, empty pieces aside. -/
def segmentsOf (path : String) : List String :=
  (stretches isSeparator path.toList).map String.ofList

/-- With slashes for its backslashes, a path is the same one written otherwise. -/
theorem respelled_normalize (path : String) :
    Respelled isSeparator path.toList (normalize path).toList := by
  have hflat : (normalize path).toList =
      path.toList.flatMap fun c => if isSeparator c then ['/'] else [c] := by
    rw [normalize, String.toList_ofList, List.map_eq_flatMap]
    congr 1
    funext c
    by_cases hback : c = '\\'
    · simp [hback, isSeparator]
    · by_cases hslash : c = '/' <;> simp [hback, hslash, isSeparator]
  rw [hflat]
  exact Text.respelled_flatMap (fun _ _ => by simp [isSeparator]) path.toList

theorem isSeparator_of_mem_normalize {path : String} {c : Char}
    (h : c ∈ (normalize path).toList) : (c == '/') = isSeparator c := by
  have hc : c ≠ '\\' := by
    rw [normalize, String.toList_ofList] at h
    obtain ⟨d, -, rfl⟩ := List.mem_map.1 h
    by_cases hd : d = '\\' <;> simp [hd]
  simp [isSeparator, hc]

/-- The segments that patterns are compared with are those between slashes of either kind. -/
theorem pathSegments_eq (path : String) : pathSegments path = segmentsOf path := by
  have hsegments : pathSegments path =
      (stretches (· == '/') (normalize path).toList).map String.ofList := by
    rw [pathSegments, Text.segments, Text.splitOn_eq_splitOnP, List.filter_map, stretches]
    congr 2
    funext piece
    rw [Bool.eq_iff_iff]
    simp [← String.toList_inj]
  rw [hsegments, segmentsOf, Text.stretches_respelled (respelled_normalize path),
    Text.stretches_congr fun c => isSeparator_of_mem_normalize]

theorem mem_segmentsOf_iff {name path : String} :
    name ∈ segmentsOf path ↔
      name ≠ "" ∧ (∀ c ∈ name.toList, isSeparator c = false) ∧
        StandsAlone isSeparator name.toList path.toList := by
  have hmem : name ∈ segmentsOf path ↔ name.toList ∈ stretches isSeparator path.toList := by
    rw [segmentsOf, List.mem_map]
    constructor
    · rintro ⟨piece, hpiece, rfl⟩
      rwa [String.toList_ofList]
    · exact fun h => ⟨name.toList, h, String.ofList_toList⟩
  rw [hmem, Text.mem_stretches_iff, ne_eq, String.toList_eq_nil_iff]

/-! ## One pattern -/

/-- A text that can be a segment, without white space at either end. -/
structure IsSegment (name : String) : Prop where
  ne_empty : name ≠ ""
  plain : ∀ c ∈ name.toList, isSeparator c = false
  head : ∀ c ∈ name.toList.head?, Text.isBlank c = false
  last : ∀ c ∈ name.toList.getLast?, Text.isBlank c = false

theorem isSegment_iff {name : String} :
    IsSegment name ↔ name ≠ "" ∧ name.toList.all (!isSeparator ·) = true ∧
      name.toList.head?.all (!Text.isBlank ·) = true ∧
      name.toList.getLast?.all (!Text.isBlank ·) = true := by
  simp only [List.all_eq_true, Option.all_eq_true, Bool.not_eq_true']
  exact ⟨fun ⟨hne, hplain, hhead, hlast⟩ => ⟨hne, hplain, hhead, hlast⟩,
    fun ⟨hne, hplain, hhead, hlast⟩ => ⟨hne, hplain, hhead, hlast⟩⟩

instance (name : String) : Decidable (IsSegment name) := decidable_of_iff _ isSegment_iff.symm

/-- A pattern that starts with no white space is not trimmed, since it ends in its slash. -/
theorem trim_slash {name : String} (hne : name ≠ "")
    (hhead : ∀ c ∈ name.toList.head?, Text.isBlank c = false) :
    Text.trim (name ++ "/") = name ++ "/" := by
  have hstart : ∀ c ∈ (name ++ "/").toList.head?, Text.isBlank c = false := by
    rw [String.toList_append, List.head?_append_of_ne_nil _ (by simpa using hne)]
    exact hhead
  have hlast : ∀ c ∈ (name ++ "/").toList.getLast?, Text.isBlank c = false := by
    simp [Text.isBlank]
  rw [Text.trim, Text.stripEnds_of_ends hstart hlast, String.ofList_toList]

theorem ofList_slash {name : String} (hne : name ≠ "")
    (hhead : ∀ c ∈ name.toList.head?, Text.isBlank c = false) :
    ofList [name ++ "/"] = ⟨[name], []⟩ := by
  have hlast : (name ++ "/").toList.getLast? = some '/' := by simp
  have hentry : entry? (name ++ "/") = some (.directory name) := by
    unfold entry?
    rw [hlast]
    simp
  rw [ofList, List.filterMap_cons, trim_slash hne hhead, hentry]
  rfl

/-- A pattern that names a directory matches where the name is a segment. -/
theorem isMatch_name (name path : String) :
    (⟨[name], []⟩ : SkipPatterns).isMatch path = true ↔ name ∈ segmentsOf path := by
  rw [isMatch, matching?, pathSegments_eq]
  by_cases h : name ∈ segmentsOf path <;> simp [h]

/-- The pattern for directories one below the other, `d₁/d₂/…/dₖ/`. -/
def directoryPattern (names : List String) : String := "/".intercalate names ++ "/"

/-- Joined names begin with the first of them. -/
theorem exists_toList_intercalate (name : String) (rest : List String) :
    ∃ more, ("/".intercalate (name :: rest)).toList = name.toList ++ more := by
  cases rest with
  | nil => exact ⟨[], by simp⟩
  | cons second rest =>
    rw [String.intercalate_cons_cons, String.toList_append, String.toList_append,
      List.append_assoc]
    exact ⟨_, rfl⟩

theorem ofList_directoryPattern {name : String} {rest : List String} (hname : IsSegment name) :
    ofList [directoryPattern (name :: rest)] = ⟨["/".intercalate (name :: rest)], []⟩ := by
  have hfirst : name.toList ≠ [] := by simpa using hname.ne_empty
  obtain ⟨more, hmore⟩ := exists_toList_intercalate name rest
  apply ofList_slash
  · rw [ne_eq, ← String.toList_eq_nil_iff, hmore]
    simp [hfirst]
  · rw [hmore, List.head?_append_of_ne_nil _ hfirst]
    exact hname.head

/-- Several names are no segment, since slashes stand between them. -/
theorem mem_segmentsOf_intercalate_iff {name : String} {rest : List String} {path : String} :
    "/".intercalate (name :: rest) ∈ segmentsOf path ↔ rest = [] ∧ name ∈ segmentsOf path := by
  cases rest with
  | nil => simp
  | cons second rest =>
    have hslash : '/' ∈ ("/".intercalate (name :: second :: rest)).toList := by
      rw [String.intercalate_cons_cons]
      simp
    refine iff_of_false (fun h => ?_) (by simp)
    have hplain := (mem_segmentsOf_iff.1 h).2.1 '/' hslash
    exact absurd hplain (by decide)

/-- A directory pattern matches a path exactly when it has one name and this is a segment of the path,
that is, stands in the path with a separator or nothing on either side. How the separators of the path
are written makes no difference. -/
theorem isMatch_directory_iff {names : List String} (hne : names ≠ [])
    (hnames : ∀ name ∈ names, IsSegment name) (path : String) :
    let p := ofList [directoryPattern names]
    (p.isMatch path = true ↔ names.length = 1 ∧ names <:+: segmentsOf path) ∧
      (p.isMatch path = true ↔
        ∃ name, names = [name] ∧ StandsAlone isSeparator name.toList path.toList) ∧
      ∀ other : String, Respelled isSeparator path.toList other.toList →
        p.isMatch other = p.isMatch path := by
  obtain ⟨name, rest, rfl⟩ := List.exists_cons_of_ne_nil hne
  have hname : IsSegment name := hnames name List.mem_cons_self
  intro p
  have hp : p = ⟨["/".intercalate (name :: rest)], []⟩ := ofList_directoryPattern hname
  -- the joined names are compared with one segment at a time
  have hmatch (path : String) :
      p.isMatch path = true ↔ rest = [] ∧ name ∈ segmentsOf path := by
    rw [hp, isMatch_name, mem_segmentsOf_intercalate_iff]
  refine ⟨?_, ?_, fun other hother => ?_⟩
  · rw [hmatch, List.length_cons]
    cases rest <;> simp [List.singleton_infix_iff]
  · rw [hmatch, mem_segmentsOf_iff]
    constructor
    · rintro ⟨rfl, -, -, halone⟩
      exact ⟨name, rfl, halone⟩
    · rintro ⟨only, honly, halone⟩
      obtain ⟨rfl, rfl⟩ := List.cons.inj honly
      exact ⟨rfl, hname.ne_empty, hname.plain, halone⟩
  · rw [Bool.eq_iff_iff, hmatch, hmatch, segmentsOf, segmentsOf, Text.stretches_respelled hother]

/-- A directory between slashes, between backslashes and between doubled slashes. -/
theorem isMatch_directory_dist :
    let p := ofList [directoryPattern ["dist"]]
    (["dist"] ≠ [] ∧ ∀ name ∈ ["dist"], IsSegment name) ∧
      p.isMatch "repo/dist/a.js" = true ∧ p.isMatch "repo\\dist\\a.js" = true ∧
      p.isMatch "repo//dist//a.js" = true := by
  intro p
  have hnames : ∀ name ∈ ["dist"], IsSegment name := by decide +kernel
  obtain ⟨hmatch, -, hrespelled⟩ :=
    isMatch_directory_iff (List.cons_ne_nil "dist" []) hnames "repo/dist/a.js"
  have hslashes : p.isMatch "repo/dist/a.js" = true := hmatch.2 (by decide +kernel)
  have hback : "repo\\dist\\a.js".toList = "repo/dist/a.js".toList.flatMap fun c =>
      if isSeparator c then ['\\'] else [c] := by decide +kernel
  have hdoubled : "repo//dist//a.js".toList = "repo/dist/a.js".toList.flatMap fun c =>
      if isSeparator c then [c, c] else [c] := by decide +kernel
  refine ⟨⟨List.cons_ne_nil "dist" [], hnames⟩, hslashes, ?_, ?_⟩
  · rw [← hslashes]
    apply hrespelled
    rw [hback]
    exact Text.respelled_flatMap (fun _ _ => by simp [isSeparator]) _
  · rw [← hslashes]
    apply hrespelled
    rw [hdoubled]
    exact Text.respelled_flatMap (fun c hc => by simp [hc]) _

/-- A path may have all directories of a pattern, one below the other, and not be matched. -/
theorem isMatch_directory_nested :
    let names := ["src", "gen"]
    (names ≠ [] ∧ ∀ name ∈ names, IsSegment name) ∧ names <:+: segmentsOf "src/gen/x" ∧
      (ofList [directoryPattern names]).isMatch "src/gen/x" = false := by
  decide +kernel

end SkipPatterns

end SourceBlocks
