import SourceBlocks.Capture.Basic
import SourceBlocks.Proofs.Capture.Matches
import SourceBlocks.Query.Cache

/-! # Records of the catalogue

Every pattern of the catalogue captures a declaration, so every match has a body, and normalization
passes over none of its records. -/

namespace SourceBlocks

namespace Pattern

mutual

/-- A match has one node for each capture of its pattern. -/
theorem names_perm_of_matchesAt :
    ∀ (p : Pattern) (n : Node), ∀ r ∈ p.matchesAt n, (r.map Prod.fst).Perm p.captures
  | mk field test children capture, n => by
    intro r hr
    obtain ⟨-, below, hbelow, rfl⟩ := mem_matchesAt.1 hr
    have hown : (capture.toList.map (·, n)).map Prod.fst = capture.toList := by
      rw [List.map_map]
      exact List.map_id _
    rw [captures, List.map_append, hown]
    exact List.perm_append_comm.trans
      ((names_perm_of_matchesAmong children n.children below hbelow).append_right _)

theorem names_perm_of_matchesAmong :
    ∀ (ps : List Pattern) (ns : List Node), ∀ r ∈ matchesAmong ps ns,
      (r.map Prod.fst).Perm (capturesAll ps)
  | [], ns => by
    intro r hr
    obtain rfl := mem_matchesAmong_nil.1 hr
    exact .nil
  | p :: ps, ns => by
    intro r hr
    obtain ⟨n, rest, -, -, first, hfirst, others, hothers, rfl⟩ := mem_matchesAmong_cons.1 hr
    rw [capturesAll, List.map_append]
    exact (names_perm_of_matchesAt p n first hfirst).append
      (names_perm_of_matchesAmong ps rest others hothers)

end

/-- The pattern captures more than a name. -/
def hasBody (p : Pattern) : Bool := p.captures.any (· != nameCapture)

end Pattern

theorem captureType_ne_name {name : String} (h : name ≠ nameCapture) :
    captureType name ≠ nameCapture := by
  unfold captureType
  split
  · exact h
  · decide

/-- A record has a body as soon as it captures more than a name. -/
theorem ofRecord?_typed_isSome {r : Record} {name : String} (hname : name ∈ r.map Prod.fst)
    (hbody : name ≠ nameCapture) : (Capture.ofRecord? (CaptureSet.typed r)).isSome = true := by
  obtain ⟨⟨name, node⟩, hmem, rfl⟩ := List.mem_map.1 hname
  have htyped : (captureType name, node) ∈ CaptureSet.typed r :=
    List.mem_map.2 ⟨(name, node), hmem, rfl⟩
  have hfound : ((CaptureSet.typed r).find? (·.1 != nameCapture)).isSome = true :=
    List.find?_isSome.2 ⟨_, htyped, by simp [captureType_ne_name hbody]⟩
  obtain ⟨⟨type, body⟩, hfirst⟩ := Option.isSome_iff_exists.1 hfound
  simp [Capture.ofRecord?, hfirst]

/-- Patterns that capture bodies leave no record to pass over, whatever the tree. -/
theorem skipped_matchesIn_eq_zero {patterns : List Pattern}
    (h : ∀ p ∈ patterns, p.hasBody = true) (root : Node) :
    (CaptureSet.ofMatches (matchesIn patterns root)).normalize.skipped = 0 := by
  have hbodies : ∀ r ∈ (matchesIn patterns root).map CaptureSet.typed,
      (Capture.ofRecord? r).isSome = true := by
    intro r hr
    obtain ⟨matched, hmatched, rfl⟩ := List.mem_map.1 hr
    obtain ⟨n, -, p, hp, hat⟩ := mem_matchesIn.1 hmatched
    obtain ⟨name, hname, hbody⟩ := List.any_eq_true.1 (h p hp)
    have hcaptured : name ∈ matched.map Prod.fst :=
      (p.names_perm_of_matchesAt n matched hat).mem_iff.2 hname
    exact ofRecord?_typed_isSome hcaptured (by simpa using hbody)
  exact List.countP_eq_zero.2 fun r hr => by simp [hbodies r hr]

namespace Catalogue

theorem primaryOf?_key (l : Language) : primaryOf? l.key = some (primary l) := by
  rw [primaryOf?, Language.ofKey?_key, Option.map_some]

theorem fallbackOf?_key (l : Language) : fallbackOf? l.key = fallback? l := by
  rw [fallbackOf?, Language.ofKey?_key, Option.bind_some]

/-- The query is one of the two that the catalogue has for the language. -/
def Lists (language : String) (q : Query) : Prop :=
  primaryOf? language = some q ∨ fallbackOf? language = some q

/-- A fallback query asks for the kinds of its language, of which there are some. -/
theorem fallback?_eq_some {l : Language} {q : Query} (h : fallback? l = some q) :
    fallbackKinds l ≠ [] ∧ q.patterns = (fallbackKinds l).map fun k => block k.1 k.2 := by
  rw [fallback?] at h
  split at h
  case h_1 => contradiction
  case h_2 kinds hkinds =>
    obtain rfl := Option.some.inj h
    exact ⟨by simpa using hkinds, rfl⟩

theorem Lists.patterns_cases {language : String} {q : Query} (h : Lists language q) :
    ∃ l : Language, q = primary l ∨
      q.patterns = (fallbackKinds l).map fun k => block k.1 k.2 := by
  rcases h with h | h
  · obtain ⟨l, -, rfl⟩ := Option.map_eq_some_iff.1 h
    exact ⟨l, Or.inl rfl⟩
  · obtain ⟨l, -, hq⟩ := Option.bind_eq_some_iff.1 h
    exact ⟨l, Or.inr (fallback?_eq_some hq).2⟩

theorem lists_primary (l : Language) : Lists l.key (primary l) := Or.inl (primaryOf?_key l)

theorem lists_fallback {l : Language} {q : Query} (h : fallback? l = some q) : Lists l.key q :=
  Or.inr ((fallbackOf?_key l).trans h)

theorem hasBody_block (kind type : String) (h : type ≠ nameCapture) :
    (block kind type).hasBody = true := by
  simp [block, Pattern.hasBody, Pattern.captures, Pattern.capturesAll, h]

theorem hasBody_of_primary (l : Language) : ∀ p ∈ (primary l).patterns, p.hasBody = true := by
  cases l <;> decide

theorem fallbackKinds_ne_name (l : Language) : ∀ k ∈ fallbackKinds l, k.2 ≠ nameCapture := by
  cases l <;> decide

theorem Lists.hasBody {language : String} {q : Query} (h : Lists language q) :
    ∀ p ∈ q.patterns, p.hasBody = true := by
  obtain ⟨l, rfl | hpatterns⟩ := h.patterns_cases
  · exact hasBody_of_primary l
  · rw [hpatterns]
    intro p hp
    obtain ⟨⟨kind, type⟩, hkind, rfl⟩ := List.mem_map.1 hp
    exact hasBody_block kind type (fallbackKinds_ne_name l _ hkind)

theorem Lists.hasGrammar {language : String} {q : Query} (h : Lists language q) :
    Language.hasGrammar language = true := by
  rw [Language.hasGrammar]
  rcases h with h | h
  · obtain ⟨l, hl, -⟩ := Option.map_eq_some_iff.1 h
    rw [hl]
    rfl
  · obtain ⟨l, hl, -⟩ := Option.bind_eq_some_iff.1 h
    rw [hl]
    rfl

end Catalogue

/-- The compiler takes every query of the catalogue for what it says. -/
def QueryCompiler.TakesCatalogue (compiler : QueryCompiler) : Prop :=
  ∀ language q, Catalogue.Lists language q → compiler language q.text = .ok q.program

namespace Catalogue

/-- No fallback query has the text of a primary query of its language. -/
theorem text_fallback_ne (l : Language) :
    ∀ q ∈ fallback? l, q.text ≠ (primary l).text := by
  cases l <;> decide +kernel

theorem compiler_takesCatalogue : compiler.TakesCatalogue := by
  intro language q h
  rcases h with h | h
  · simp [compiler, ofText?, h]
  · obtain ⟨l, hl, hq⟩ := Option.bind_eq_some_iff.1 h
    have hprimary : primaryOf? language = some (primary l) := by simp [primaryOf?, hl]
    have hother := text_fallback_ne l q hq
    simp [compiler, ofText?, h, hprimary, Ne.symm hother]

end Catalogue

end SourceBlocks
