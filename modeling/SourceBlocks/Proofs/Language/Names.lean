import SourceBlocks.Language.Detection
import SourceBlocks.Proofs.Text.Splitting

/-! # Languages by name

A path has the language of what follows its last slash or backslash, letter case aside: that of a
special file name, or else that of the extension. No special file name has an extension that has a
language, so that each extension stands for its language behind any stem. -/

namespace SourceBlocks

namespace Detection

open Text (isSeparator)

/-- What follows the last slash or backslash of a path. -/
def nameOf (path : String) : String :=
  String.ofList (path.toList.rtakeWhile fun c => !isSeparator c)

/-- The text with the letters of ASCII in lower case. -/
def lower (s : String) : String := String.ofList (s.toList.map Char.toLower)

theorem toList_nameOf (path : String) :
    (nameOf path).toList = path.toList.rtakeWhile fun c => !isSeparator c :=
  String.toList_ofList

theorem toList_lower (s : String) : (lower s).toList = s.toList.map Char.toLower :=
  String.toList_ofList

theorem toNat_toLower (c : Char) :
    c.toLower.toNat = if 65 ≤ c.toNat ∧ c.toNat ≤ 90 then c.toNat + 32 else c.toNat := by
  have hupper : c.val ≥ 'A'.val ∧ c.val ≤ 'Z'.val ↔ 65 ≤ c.toNat ∧ c.toNat ≤ 90 := by
    simp only [ge_iff_le, UInt32.le_iff_toNat_le]
    rfl
  unfold Char.toLower
  split
  case isTrue h =>
    obtain ⟨hleast, hmost⟩ := hupper.1 h
    have hval : (c.val + ('a'.val - 'A'.val)).toNat = c.toNat + 32 := by
      show (c.toNat + 32) % 2 ^ 32 = c.toNat + 32
      omega
    rw [if_pos ⟨hleast, hmost⟩]
    exact hval
  case isFalse h => rw [if_neg (mt hupper.2 h)]

/-- A character that is no letter is the lower case of itself only. -/
theorem toLower_eq_iff {c d : Char}
    (hd : ¬(65 ≤ d.toNat ∧ d.toNat ≤ 90) ∧ ¬(97 ≤ d.toNat ∧ d.toNat ≤ 122)) :
    c.toLower = d ↔ c = d := by
  rw [← Char.toNat_inj, ← Char.toNat_inj, toNat_toLower]
  split <;> omega

theorem mem_map_toLower_iff {d : Char}
    (hd : ¬(65 ≤ d.toNat ∧ d.toNat ≤ 90) ∧ ¬(97 ≤ d.toNat ∧ d.toNat ≤ 122)) {cs : List Char} :
    d ∈ cs.map Char.toLower ↔ d ∈ cs := by
  simp [toLower_eq_iff hd]

theorem isSeparator_toLower (c : Char) : isSeparator c.toLower = isSeparator c := by
  have hslash := toLower_eq_iff (c := c) (d := '/') (by decide)
  have hback := toLower_eq_iff (c := c) (d := '\\') (by decide)
  simp only [isSeparator, beq_eq_decide, hslash, hback]

theorem nameOf_lower (path : String) : nameOf (lower path) = lower (nameOf path) := by
  rw [nameOf, toList_lower, lower, toList_nameOf, List.rtakeWhile, ← List.map_reverse,
    List.takeWhile_map, ← List.map_reverse, List.rtakeWhile]
  simp only [Function.comp_def, isSeparator_toLower]

theorem lastComponent_eq (path : String) : lastComponent path = lower (nameOf path) := by
  rw [lastComponent, Text.getLast?_splitOn, lower, toList_nameOf]
  rfl

theorem isSeparator_of_mem_nameOf {path : String} {c : Char} (h : c ∈ (nameOf path).toList) :
    isSeparator c = false := by
  rw [toList_nameOf] at h
  simpa using List.mem_rtakeWhile_imp h

theorem nameOf_eq_self {s : String} (h : ∀ c ∈ s.toList, isSeparator c = false) :
    nameOf s = s := by
  rw [nameOf, List.rtakeWhile_eq_self_iff.2 (fun c hc => by rw [h c hc]; rfl), String.ofList_toList]

/-! ## Blank paths -/

theorem toLower_of_isBlank {c : Char} (h : Text.isBlank c = true) : c.toLower = c := by
  rw [← Char.toNat_inj, toNat_toLower]
  simp only [Text.isBlank, Bool.or_eq_true, Bool.and_eq_true, decide_eq_true_eq, beq_iff_eq] at h
  rw [if_neg (by omega)]

theorem fileNames_not_blank : ∀ entry ∈ fileNames, entry.1.toList.all Text.isBlank = false := by
  decide

/-- White space is no special file name and has no extension. -/
theorem ofFileName?_of_blank {name : String} (h : Text.isBlankText name = true) :
    ofFileName? name = none := by
  have hblank : ∀ c ∈ name.toList, Text.isBlank c = true := List.all_eq_true.1 h
  have hslash : '/' ∉ name.toList := fun hmem => absurd (hblank _ hmem) (by decide)
  have hdot : '.' ∉ name.toList := fun hmem => absurd (hblank _ hmem) (by decide)
  have hlookup : fileNames.lookup name = none := by
    refine List.lookup_eq_none_iff.2 fun entry hentry => bne_iff_ne.2 ?_
    rintro rfl
    rw [Text.isBlankText, fileNames_not_blank entry hentry] at h
    exact Bool.false_ne_true h
  rw [ofFileName?, hlookup, Text.extension?_of_no_dot hslash hdot]
  rfl

/-- Blank or not, a path has the language of its name. -/
theorem languageOf?_eq (path : String) : languageOf? path = ofFileName? (lower (nameOf path)) := by
  rw [languageOf?, lastComponent_eq]
  split
  case isTrue hblank =>
    have hblank' : ∀ c ∈ (nameOf path).toList, Text.isBlank c = true := by
      intro c hc
      rw [toList_nameOf] at hc
      exact List.all_eq_true.1 hblank c ((List.rtakeWhile_suffix _ _).subset hc)
    have hlower : lower (nameOf path) = nameOf path := by
      have hmap := List.map_congr_left fun c hc => toLower_of_isBlank (hblank' c hc)
      rw [lower, hmap, List.map_id', String.ofList_toList]
    rw [hlower, ofFileName?_of_blank (List.all_eq_true.2 hblank')]
  case isFalse => rfl

/-! ## Extensions -/

theorem slash_notMem {s : String} (h : ∀ c ∈ s.toList, isSeparator c = false) :
    '/' ∉ s.toList := fun hmem => absurd (h '/' hmem) (by decide)

/-- The extension of a name in lower case is that of the name. -/
theorem extension?_lower {name ext : String} (hslash : '/' ∉ name.toList)
    (h : Text.extension? name = some ext) : Text.extension? (lower name) = some (lower ext) := by
  obtain ⟨stem, hname, hdot, hstem⟩ := (Text.extension?_eq_some_iff hslash).1 h
  have hslash' : '/' ∉ (lower name).toList := by
    rwa [toList_lower, mem_map_toLower_iff (by decide)]
  refine (Text.extension?_eq_some_iff hslash').2 ⟨stem.map Char.toLower, ?_, ?_, ?_⟩
  · rw [toList_lower, toList_lower, hname, List.map_append, List.map_cons]
    rfl
  · rwa [toList_lower, mem_map_toLower_iff (by decide)]
  · rw [toList_lower, List.map_eq_nil_iff, List.map_eq_nil_iff, List.map_eq_singleton_iff]
    rintro (hnil | ⟨⟨c, rfl, hc⟩, hext⟩)
    · exact hstem (.inl hnil)
    · rw [toLower_eq_iff (by decide)] at hc
      exact hstem (.inr ⟨by rw [hc], hext⟩)

theorem ofExtension?_of_no_dot {ext : String} (h : '.' ∉ ext.toList) :
    ofExtension? ext = extensions.lookup (lower ext) := by
  have hdrop : ext.toList.dropWhile (· == '.') = ext.toList := by
    cases hcs : ext.toList with
    | nil => rfl
    | cons c cs =>
      have hc : c ≠ '.' := by
        rintro rfl
        exact h (by rw [hcs]; exact List.mem_cons_self)
      rw [List.dropWhile_cons_of_neg (by simpa using hc)]
  rw [ofExtension?, hdrop, lower]

/-- A name that is no special one and has an extension has the language of that extension. -/
theorem languageOf?_of_extension {path ext : String}
    (hname : fileNames.lookup (lower (nameOf path)) = none)
    (hext : Text.extension? (nameOf path) = some ext) :
    languageOf? path = ofExtension? ext := by
  have hslash : '/' ∉ (nameOf path).toList := slash_notMem fun _ => isSeparator_of_mem_nameOf
  obtain ⟨-, -, hdot, -⟩ := (Text.extension?_eq_some_iff hslash).1 hext
  rw [languageOf?_eq, ofFileName?, hname, Option.none_or, extension?_lower hslash hext,
    Option.bind_some, ofExtension?_of_no_dot hdot]

theorem mem_sortedNames {names : List String} {name : String} :
    name ∈ sortedNames names ↔ name ∈ names := by
  rw [sortedNames, List.mem_mergeSort, List.mem_eraseDups]

theorem mem_extensionsOf {language ext : String} :
    ext ∈ extensionsOf language ↔ ∃ e, (e, language) ∈ extensions ∧ ext = "." ++ e := by
  rw [extensionsOf, mem_sortedNames]
  simp only [List.mem_map, List.mem_filter, beq_iff_eq, Prod.exists]
  constructor
  · rintro ⟨e, l, ⟨hmem, rfl⟩, rfl⟩
    exact ⟨e, hmem, rfl⟩
  · rintro ⟨e, hmem, rfl⟩
    exact ⟨e, language, ⟨hmem, rfl⟩, rfl⟩

/-- An extension with a language is in lower case, without dots and separators, and listed once. -/
theorem extensions_plain : ∀ entry ∈ extensions,
    entry.1.toList ≠ [] ∧ entry.1.toList.map Char.toLower = entry.1.toList ∧
      '.' ∉ entry.1.toList ∧ entry.1.toList.any isSeparator = false ∧
      extensions.lookup entry.1 = some entry.2 := by
  decide +kernel

/-- No special file name has an extension with a language. -/
theorem fileNames_not_extended : ∀ special ∈ fileNames,
    ((Text.extension? special.1).bind (extensions.lookup ·)).isNone = true := by
  decide +kernel

theorem lookup_fileNames_of_extension {name ext language : String}
    (hext : Text.extension? name = some ext) (hlookup : extensions.lookup ext = some language) :
    fileNames.lookup name = none := by
  refine List.lookup_eq_none_iff.2 fun special hmem => bne_iff_ne.2 ?_
  rintro rfl
  have hnone := fileNames_not_extended special hmem
  rw [hext, Option.bind_some, hlookup] at hnone
  exact Bool.false_ne_true hnone

/-- Behind a stem, an extension stands for its language. -/
theorem languageOf?_of_stem {language ext stem : String} (hext : ext ∈ extensionsOf language)
    (hstem : stem ≠ "") (hplain : ∀ c ∈ stem.toList, isSeparator c = false) :
    languageOf? (stem ++ ext) = some language := by
  obtain ⟨e, hmem, rfl⟩ := mem_extensionsOf.1 hext
  obtain ⟨hne, hcase, hdot, hseparated, hlookup⟩ := extensions_plain _ hmem
  have hlower : lower e = e := by rw [lower, hcase, String.ofList_toList]
  have htext : (stem ++ ("." ++ e)).toList = stem.toList ++ '.' :: e.toList := by simp
  have hall : ∀ c ∈ (stem ++ ("." ++ e)).toList, isSeparator c = false := by
    rw [htext]
    intro c hc
    rcases List.mem_append.1 hc with hc | hc
    · exact hplain c hc
    · rcases List.mem_cons.1 hc with rfl | hc
      · rfl
      · exact Bool.eq_false_iff.2 (List.any_eq_false.1 hseparated c hc)
  have hextension : Text.extension? (stem ++ ("." ++ e)) = some e := by
    refine (Text.extension?_eq_some_iff (slash_notMem hall)).2 ⟨stem.toList, htext, hdot, ?_⟩
    rintro (hnil | ⟨-, hnil⟩)
    · exact hstem (String.toList_eq_nil_iff.1 hnil)
    · exact hne hnil
  have hspecial : fileNames.lookup (lower (stem ++ ("." ++ e))) = none := by
    have hlast := extension?_lower (slash_notMem hall) hextension
    rw [hlower] at hlast
    exact lookup_fileNames_of_extension hlast hlookup
  have hname := nameOf_eq_self hall
  rw [← hname] at hspecial hextension
  rw [languageOf?_of_extension hspecial hextension, ofExtension?_of_no_dot hdot, hlower, hlookup]

/-- The language that is answered for a path is decided by its name. -/
structure ByName (answer : String → Option String) : Prop where
  /-- Only what follows the last slash or backslash counts. -/
  name : ∀ path other, nameOf path = nameOf other → answer path = answer other
  letterCase : ∀ path other, lower path = lower other → answer path = answer other
  extension : ∀ path ext, fileNames.lookup (lower (nameOf path)) = none →
    Text.extension? (nameOf path) = some ext → answer path = ofExtension? ext
  stem : ∀ language, ∀ ext ∈ extensionsOf language, ∀ stem, stem ≠ "" →
    (∀ c ∈ stem.toList, isSeparator c = false) → answer (stem ++ ext) = some language

theorem byName_languageOf? : ByName languageOf? where
  name path other h := by rw [languageOf?_eq, languageOf?_eq, h]
  letterCase path other h := by
    rw [languageOf?_eq, languageOf?_eq, ← nameOf_lower, ← nameOf_lower, h]
  extension path ext := languageOf?_of_extension
  stem language ext hext stem := languageOf?_of_stem hext

end Detection

end SourceBlocks
