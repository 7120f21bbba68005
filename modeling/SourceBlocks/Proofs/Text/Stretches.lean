import SourceBlocks.Proofs.Text.Splitting

/-! # Stretches between separators

Where separators may be repeated and may stand at either end, a text is read by its pieces that are
not empty. They are the pieces that stand alone in it, and stay the same when its separators are
written otherwise. -/

namespace SourceBlocks.Text

variable {p : Char → Bool} {cs piece : List Char} {c : Char}

/-- The pieces between separators that are not empty. -/
def stretches (p : Char → Bool) (cs : List Char) : List (List Char) :=
  (cs.splitOnP p).filter (· ≠ [])

theorem stretches_append_cons (hc : p c = true) (xs ys : List Char) :
    stretches p (xs ++ c :: ys) = stretches p xs ++ stretches p ys := by
  rw [stretches, List.splitOnP_append_cons xs ys hc, List.filter_append]
  rfl

theorem stretches_of_plain (h : ∀ c ∈ cs, p c = false) :
    stretches p cs = if cs = [] then [] else [cs] := by
  rw [stretches, List.splitOnP_eq_singleton h]
  split <;> simp [*]

theorem stretches_congr {q : Char → Bool} (h : ∀ c ∈ cs, p c = q c) :
    stretches p cs = stretches q cs := by
  have hsplit : cs.splitOnP p = cs.splitOnP q := by
    induction cs with
    | nil => rfl
    | cons c cs ih =>
      rw [List.forall_mem_cons] at h
      rw [List.splitOnP_cons_eq_if_modifyHead, List.splitOnP_cons_eq_if_modifyHead, h.1, ih h.2]
  rw [stretches, stretches, hsplit]

/-! ## What stands alone -/

/-- The piece stands in the text with a separator or nothing on either side. -/
def StandsAlone (p : Char → Bool) (piece cs : List Char) : Prop :=
  ∃ before after, cs = before ++ piece ++ after ∧
    (∀ c ∈ before.getLast?, p c = true) ∧ ∀ c ∈ after.head?, p c = true

theorem standsAlone_of_mem {cs : List Char} (h : piece ∈ stretches p cs) :
    piece ≠ [] ∧ (∀ c ∈ piece, p c = false) ∧ StandsAlone p piece cs := by
  -- the text is cut at its last separator
  rcases separated_cases p cs with hplain | ⟨xs, c, ys, rfl, hc, hys⟩
  · rw [stretches_of_plain hplain] at h
    split at h
    case isTrue => simp at h
    case isFalse hne =>
      obtain rfl := List.mem_singleton.1 h
      exact ⟨hne, hplain, [], [], by simp⟩
  · rw [stretches_append_cons hc, List.mem_append] at h
    rcases h with hleft | hright
    · obtain ⟨hne, hplain, before, after, rfl, hbefore, hafter⟩ := standsAlone_of_mem hleft
      refine ⟨hne, hplain, before, after ++ c :: ys, by simp, hbefore, ?_⟩
      cases after with
      | nil => simpa using hc
      | cons d ds => simpa using hafter
    · rw [stretches_of_plain hys] at hright
      split at hright
      case isTrue => simp at hright
      case isFalse hne =>
        obtain rfl := List.mem_singleton.1 hright
        exact ⟨hne, hys, xs ++ [c], [], by simp, by simpa using hc, by simp⟩
termination_by cs.length

theorem mem_of_standsAlone (hne : piece ≠ []) (hplain : ∀ c ∈ piece, p c = false)
    (h : StandsAlone p piece cs) : piece ∈ stretches p cs := by
  obtain ⟨before, after, rfl, hbefore, hafter⟩ := h
  have hpiece : stretches p piece = [piece] := by rw [stretches_of_plain hplain, if_neg hne]
  have hright : piece ∈ stretches p (piece ++ after) := by
    cases after with
    | nil => simp [hpiece]
    | cons c cs => simp [stretches_append_cons (hafter c rfl), hpiece]
  rw [List.append_assoc]
  rcases List.eq_nil_or_concat before with rfl | ⟨xs, c, rfl⟩
  · exact hright
  · have hc : p c = true := hbefore c (by simp)
    rw [List.concat_eq_append, List.append_assoc, List.singleton_append, stretches_append_cons hc]
    exact List.mem_append_right _ hright

/-- The pieces of a text are those that are not empty, hold no separator and stand alone in it. -/
theorem mem_stretches_iff :
    piece ∈ stretches p cs ↔
      piece ≠ [] ∧ (∀ c ∈ piece, p c = false) ∧ StandsAlone p piece cs :=
  ⟨standsAlone_of_mem, fun ⟨hne, hplain, h⟩ => mem_of_standsAlone hne hplain h⟩

/-! ## Separators written otherwise -/

/-- The second text is the first with other runs of separators for those of the first. -/
inductive Respelled (p : Char → Bool) : List Char → List Char → Prop where
  | nil : Respelled p [] []
  | keep (c : Char) {xs ys : List Char} : Respelled p xs ys → Respelled p (c :: xs) (c :: ys)
  | separators {c d : Char} {run other xs ys : List Char} :
      (∀ x ∈ c :: run, p x = true) → (∀ x ∈ d :: other, p x = true) →
      Respelled p xs ys → Respelled p (c :: run ++ xs) (d :: other ++ ys)

/-- A run of separators is as good as one. -/
theorem stretches_append_run {run : List Char} (h : ∀ x ∈ c :: run, p x = true)
    (xs ys : List Char) : stretches p (xs ++ (c :: run ++ ys)) = stretches p xs ++ stretches p ys := by
  induction run generalizing c xs with
  | nil => exact stretches_append_cons (h c (by simp)) xs ys
  | cons d run ih =>
    have hrest : ∀ x ∈ d :: run, p x = true := fun x hx => h x (List.mem_cons_of_mem _ hx)
    have hnone : stretches p [] = [] := rfl
    have htail := ih hrest []
    rw [hnone, List.nil_append, List.nil_append] at htail
    rw [List.cons_append, stretches_append_cons (h c (by simp)), htail]

/-- Whatever stands before, the pieces stay the same. -/
theorem stretches_append_respelled {xs ys : List Char} (h : Respelled p xs ys)
    (before : List Char) : stretches p (before ++ xs) = stretches p (before ++ ys) := by
  induction h generalizing before with
  | nil => rfl
  | keep c _ ih =>
    -- a character that is kept goes to what stands before
    simpa using ih (before ++ [c])
  | separators hrun hother _ ih =>
    have htail := ih []
    rw [List.nil_append, List.nil_append] at htail
    rw [stretches_append_run hrun, stretches_append_run hother, htail]

theorem stretches_respelled {xs ys : List Char} (h : Respelled p xs ys) :
    stretches p xs = stretches p ys := stretches_append_respelled h []

/-- A text in which a run of separators is written for each. -/
theorem respelled_flatMap {f : Char → List Char}
    (h : ∀ c, p c = true → f c ≠ [] ∧ ∀ x ∈ f c, p x = true) (cs : List Char) :
    Respelled p cs (cs.flatMap fun c => if p c then f c else [c]) := by
  induction cs with
  | nil => exact .nil
  | cons c cs ih =>
    rw [List.flatMap_cons]
    split
    case isTrue hc =>
      obtain ⟨hne, hrun⟩ := h c hc
      obtain ⟨d, other, hother⟩ := List.exists_cons_of_ne_nil hne
      rw [hother] at hrun ⊢
      have hone : ∀ x ∈ [c], p x = true := by simpa using hc
      have hrespelled := Respelled.separators hone hrun ih
      exact hrespelled
    case isFalse => exact .keep c ih

end SourceBlocks.Text
