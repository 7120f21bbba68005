import SourceBlocks.Settings.Basic

/-! # What valid settings come to

The five checks look at the settings for all languages. What is set for one language is mended where
it is put in: its blocks and its multiplier always, its bytes not. -/

namespace SourceBlocks

theorem isPositiveFinite_iff {x : Float} :
    isPositiveFinite x = true ↔ x.isFinite = true ∧ 0 < x := by
  rw [isPositiveFinite, Bool.and_eq_true, decide_eq_true_iff]

/-- A tuning under which a file can have a byte and a block, and a parser be waited for. -/
structure LanguageTuning.Usable (t : LanguageTuning) : Prop where
  byte : 1 ≤ t.maxFileBytes
  block : 1 ≤ t.maxBlocks
  finite : t.timeoutMultiplier.isFinite = true
  positive : 0 < t.timeoutMultiplier

namespace Settings

variable {s : Settings}

/-- The settings are valid when each of the five checks passes. -/
theorem invalid?_eq_none_iff :
    s.invalid? = none ↔
      s.maxBlocks ≠ 0 ∧ s.maxFileBytes ≠ 0 ∧ s.cacheCapacity ≠ 0 ∧
        isPositiveFinite s.timeoutSeconds = true ∧ s.tokenOverlap < s.tokenWindow := by
  rw [invalid?]
  by_cases hblocks : s.maxBlocks = 0
  · simp [hblocks]
  by_cases hbytes : s.maxFileBytes = 0
  · simp [hblocks, hbytes]
  by_cases hcache : s.cacheCapacity = 0
  · simp [hblocks, hbytes, hcache]
  cases htime : isPositiveFinite s.timeoutSeconds with
  | false => simp [hblocks, hbytes, hcache]
  | true => simp [hblocks, hbytes, hcache]

theorem maxBlocks_pos (h : s.invalid? = none) : 0 < s.maxBlocks :=
  Nat.pos_of_ne_zero (invalid?_eq_none_iff.1 h).1

/-- Under valid settings each language may have a block, whatever is set for it alone. -/
theorem maxBlocks_tuning_pos (h : s.invalid? = none) (language : String) :
    0 < (s.tuning language).maxBlocks := by
  have hpos := maxBlocks_pos h
  have hbase : 0 < (s.baseTuning language).maxBlocks := by
    rw [baseTuning]
    dsimp only
    split <;> omega
  rw [tuning]
  split
  case h_1 => exact hbase
  case h_2 o _ =>
    cases hblocks : o.maxBlocks with
    | none => simpa [hblocks] using hbase
    | some n =>
      simp only [Option.map_some, Option.getD_some]
      omega

theorem hasStructuralSupport_tuning (s : Settings) (language : String) :
    (s.tuning language).hasStructuralSupport = Language.hasGrammar language := by
  rw [← Catalogue.hasStructuralSupport_eq, tuning]
  split <;> rfl

/-- The limit of bytes is the one that is set for the language, or else the one for all. -/
theorem maxFileBytes_tuning (s : Settings) (language : String) :
    (s.tuning language).maxFileBytes =
      ((s.overrides.lookup language).bind (·.maxFileBytes)).getD s.maxFileBytes := by
  rw [tuning]
  split
  case h_1 hnone => rw [hnone]; rfl
  case h_2 o hsome => rw [hsome]; rfl

theorem isPositiveFinite_baseTuning (s : Settings) (language : String) :
    isPositiveFinite (s.baseTuning language).timeoutMultiplier = true := by
  rw [baseTuning]
  dsimp only
  split <;> decide

/-- A multiplier that is set counts only if it is finite and positive, and those of the library
are. -/
theorem isPositiveFinite_tuning (s : Settings) (language : String) :
    isPositiveFinite (s.tuning language).timeoutMultiplier = true := by
  have hbase := isPositiveFinite_baseTuning s language
  rw [tuning]
  split
  case h_1 => exact hbase
  case h_2 o _ =>
    dsimp only
    cases hfactor : o.timeoutMultiplier.filter isPositiveFinite with
    | none => exact hbase
    | some factor => exact (Option.filter_eq_some_iff.1 hfactor).2

/-- Under valid settings each language may have a block and has a multiplier that is finite and
positive, whatever is set for it alone. Its files may have a byte unless zero bytes are set for it,
which no check excludes. -/
theorem tuning_usable_iff (h : s.invalid? = none) (language : String) :
    let t := s.tuning language
    (1 ≤ t.maxBlocks ∧ t.timeoutMultiplier.isFinite = true ∧ 0 < t.timeoutMultiplier) ∧
      (t.Usable ↔
        ∀ o, s.overrides.lookup language = some o → o.maxFileBytes ≠ some 0) := by
  intro t
  have hblock : 1 ≤ t.maxBlocks := maxBlocks_tuning_pos h language
  obtain ⟨hfinite, hpositive⟩ := isPositiveFinite_iff.1 (isPositiveFinite_tuning s language)
  have hbytes : 1 ≤ t.maxFileBytes ↔
      ∀ o, s.overrides.lookup language = some o → o.maxFileBytes ≠ some 0 := by
    rw [maxFileBytes_tuning, Nat.one_le_iff_ne_zero]
    have hall := (invalid?_eq_none_iff.1 h).2.1
    cases s.overrides.lookup language with
    | none => simpa using hall
    | some o => cases hlimit : o.maxFileBytes <;> simp [hlimit, hall]
  refine ⟨⟨hblock, hfinite, hpositive⟩, ?_⟩
  rw [← hbytes]
  exact ⟨LanguageTuning.Usable.byte, fun hbyte => ⟨hbyte, hblock, hfinite, hpositive⟩⟩

/-- No blocks, a negative multiplier and a limit of 64 bytes for Rust come to a usable tuning. -/
theorem tuning_usable_rust :
    let o : LanguageOverride :=
      { maxFileBytes := some 64, maxBlocks := some 0, timeoutMultiplier := some (-1) }
    let s : Settings := { overrides := [("rust", o)] }
    s.invalid? = none ∧ (s.tuning "rust").Usable := by
  intro o s
  have hvalid : s.invalid? = none := by decide
  refine ⟨hvalid, (tuning_usable_iff hvalid "rust").2.2 fun o' ho => ?_⟩
  obtain rfl : o = o' := Option.some.inj ho
  decide

/-- Zero bytes for Python pass every check, and leave its files without room. -/
theorem tuning_withoutBytes :
    let s : Settings := { overrides := [("python", { maxFileBytes := some 0 })] }
    s.invalid? = none ∧ (s.tuning "python").maxFileBytes = 0 ∧ ¬(s.tuning "python").Usable := by
  intro s
  have hzero : (s.tuning "python").maxFileBytes = 0 := by decide
  refine ⟨by decide, hzero, fun husable => ?_⟩
  have hbyte := husable.byte
  omega

end Settings

end SourceBlocks
