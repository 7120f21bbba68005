import SourceBlocks.Settings.Variables
import SourceBlocks.Proofs.Settings.Tuning

/-! # Overrides that fail

The variables are read one after the other, and each is set as soon as it is read. A time that is no
number leaves the settings as they were; after any later error, what was set until then stays. -/

namespace SourceBlocks

namespace Variables

variable {α : Type}

/-- What is read of a variable, if it is set at all. -/
def reading (value : Option String) (read : String → Except SettingsError α) :
    Except SettingsError (Option α) :=
  match value with
  | none => .ok none
  | some raw => (read raw).map some

def readSeconds (raw : String) : Except SettingsError Float :=
  match Numeric.float? (Text.trim raw) with
  | some seconds => .ok seconds
  | none => .error (.timeoutNotANumber raw)

/-- The time that is asked for. -/
def seconds? (v : Variables) : Except SettingsError (Option Float) := reading v.timeout readSeconds

/-- The way of cutting that is asked for. -/
def kind? (v : Variables) : Except SettingsError (Option ChunkerKind) :=
  reading v.chunker ChunkerKind.ofName

end Variables

namespace Settings

/-- The settings with what is asked for instead of their own time and way of cutting. -/
def replace (s : Settings) (seconds? : Option Float) (kind? : Option ChunkerKind) : Settings :=
  { s with
    timeoutSeconds := seconds?.getD s.timeoutSeconds
    chunker := kind?.getD s.chunker }

theorem replace_eq_self_iff {s : Settings} {seconds? : Option Float} {kind? : Option ChunkerKind} :
    s.replace seconds? kind? = s ↔
      seconds?.getD s.timeoutSeconds = s.timeoutSeconds ∧ kind?.getD s.chunker = s.chunker := by
  constructor
  · intro h
    exact ⟨congrArg timeoutSeconds h, congrArg chunker h⟩
  · rintro ⟨hseconds, hkind⟩
    rw [replace, hseconds, hkind]

/-- Of valid settings, a time that is no duration makes invalid ones, and nothing else does. -/
theorem invalid?_replace_ne_none_iff {s : Settings} (h : s.invalid? = none)
    (seconds? : Option Float) (kind? : Option ChunkerKind) :
    (s.replace seconds? kind?).invalid? ≠ none ↔
      ∃ seconds, seconds? = some seconds ∧ isPositiveFinite seconds = false := by
  obtain ⟨hblocks, hbytes, hcache, htime, hoverlap⟩ := invalid?_eq_none_iff.1 h
  rw [ne_eq, invalid?_eq_none_iff]
  cases seconds? with
  | none => simp [replace, hblocks, hbytes, hcache, htime, hoverlap]
  | some seconds => simp [replace, hblocks, hbytes, hcache, hoverlap]

/-- What a step reads and puts comes to. -/
def placed {α : Type} (s : Settings) (put : Option α → Settings) :
    Except SettingsError (Option α) → Settings × Option SettingsError
  | .ok a? => (put a?, none)
  | .error e => (s, some e)

theorem attempt_eq {α : Type} (s : Settings) (value : Option String)
    {step : Settings → String → Except SettingsError Settings}
    {read : String → Except SettingsError α} {put : Option α → Settings} (hnone : put none = s)
    (hsome : ∀ raw, step s raw = (read raw).map fun a => put (some a)) :
    s.attempt value step = s.placed put (Variables.reading value read) := by
  cases value with
  | none => simp [attempt, Variables.reading, placed, hnone]
  | some raw =>
    dsimp only [attempt, Variables.reading]
    rw [hsome]
    cases read raw <;> rfl

theorem attempt_setTimeout (s : Settings) (v : Variables) :
    s.attempt v.timeout setTimeout = s.placed (s.replace · none) v.seconds? := by
  have hread (raw : String) : s.setTimeout raw =
      (Variables.readSeconds raw).map fun seconds => s.replace (some seconds) none := by
    unfold setTimeout Variables.readSeconds
    cases Numeric.float? (Text.trim raw) <;> rfl
  exact attempt_eq s v.timeout rfl hread

theorem attempt_setChunker (s : Settings) (v : Variables) :
    s.attempt v.chunker setChunker = s.placed (s.replace none ·) v.kind? :=
  attempt_eq s v.chunker rfl fun _ => rfl

theorem override_eq (s : Settings) (v : Variables) :
    s.override v =
      match v.seconds?, v.kind? with
      | .error e, _ => (s, some e)
      | .ok seconds?, .error e => (s.replace seconds? none, some e)
      | .ok seconds?, .ok kind? =>
        (s.replace seconds? kind?, (s.replace seconds? kind?).invalid?) := by
  rw [override, attempt_setTimeout]
  cases v.seconds? with
  | error e => rfl
  | ok seconds? =>
    dsimp only [placed]
    rw [attempt_setChunker]
    cases v.kind? <;> rfl

/-- What settings are left with when an error stops the variables from being applied. -/
structure Stopped (s : Settings) (v : Variables) (e : SettingsError) (left : Settings) : Prop where
  /-- Nothing is set before the time is read. -/
  noNumber : ∀ e', v.seconds? = .error e' → e = e' ∧ left = s
  /-- The time is set before the way of cutting is read. -/
  noKind : ∀ seconds? e', v.seconds? = .ok seconds? → v.kind? = .error e' →
    e = e' ∧ left = s.replace seconds? none
  /-- Both are set before the settings are checked. -/
  invalid : ∀ seconds? kind?, v.seconds? = .ok seconds? → v.kind? = .ok kind? →
    left = s.replace seconds? kind? ∧ left.invalid? = some e
  /-- Nothing changes exactly when each that is set was so already. -/
  eq_iff : left = s ↔ ∀ seconds?, v.seconds? = .ok seconds? →
    seconds?.getD s.timeoutSeconds = s.timeoutSeconds ∧
      ∀ kind?, v.kind? = .ok kind? → kind?.getD s.chunker = s.chunker
  /-- Valid settings become invalid exactly when the time is a number and no duration. -/
  spoiled_iff : s.invalid? = none → (left.invalid? ≠ none ↔
    ∃ seconds, v.seconds? = .ok (some seconds) ∧ isPositiveFinite seconds = false)

/-- Variables that cannot be applied leave what was set before the error. -/
theorem override_stopped {s : Settings} {v : Variables} {e : SettingsError}
    (h : (s.override v).2 = some e) : Stopped s v e (s.override v).1 := by
  rw [override_eq] at h ⊢
  cases hseconds : v.seconds? with
  | error e' =>
    rw [hseconds] at h
    have he : e' = e := Option.some.inj h
    constructor <;> simp [hseconds, he]
  | ok seconds? =>
    rw [hseconds] at h
    cases hkind : v.kind? with
    | error e' =>
      rw [hkind] at h
      have he : e' = e := Option.some.inj h
      refine ⟨?_, ?_, ?_, ?_, fun hvalid => ?_⟩
      · simp [hseconds]
      · simp [hseconds, hkind, he]
      · simp [hseconds, hkind]
      · simp [hseconds, hkind, replace_eq_self_iff]
      · simp [hseconds, invalid?_replace_ne_none_iff hvalid]
    | ok kind? =>
      rw [hkind] at h
      refine ⟨?_, ?_, ?_, ?_, fun hvalid => ?_⟩
      · simp [hseconds]
      · simp [hseconds, hkind]
      · simpa [hseconds, hkind] using h
      · simp [hseconds, hkind, replace_eq_self_iff]
      · simp [hseconds, invalid?_replace_ne_none_iff hvalid]

/-- A time is set before the way of cutting is found to be unknown. -/
theorem override_stopped_unknownChunker :
    (({} : Settings).override ⟨some "15", some "words"⟩).2 = some (.unknownChunker "words") ∧
      Stopped {} ⟨some "15", some "words"⟩ (.unknownChunker "words")
        (({} : Settings).override ⟨some "15", some "words"⟩).1 := by
  have h : (({} : Settings).override ⟨some "15", some "words"⟩).2 =
      some (.unknownChunker "words") := by decide
  exact ⟨h, override_stopped h⟩

/-- An unknown way of cutting leaves the default settings with another time, and a time below zero
leaves them invalid. -/
theorem override_stops_halfway :
    let known : Settings := {}
    let halfway := known.override ⟨some "15", some "words"⟩
    let spoiled := known.override ⟨some "-1", none⟩
    known.invalid? = none ∧
      halfway.2 = some (.unknownChunker "words") ∧ halfway.1 ≠ known ∧
      spoiled.2 = some .timeoutNotPositive ∧ spoiled.1.invalid? = some .timeoutNotPositive := by
  intro known halfway spoiled
  refine ⟨by decide, by decide, fun h => ?_, by decide, by decide⟩
  have hbits : halfway.1.timeoutSeconds.toBits ≠ known.timeoutSeconds.toBits := by decide
  exact hbits (congrArg (·.timeoutSeconds.toBits) h)

end Settings

end SourceBlocks
