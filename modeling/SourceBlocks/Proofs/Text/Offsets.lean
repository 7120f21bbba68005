import SourceBlocks.Text.Lines
import SourceBlocks.Text.Slice

/-! # Lines at byte offsets

A byte offset has a row, the newlines before it, and a column, the bytes since the last of them. On
character boundaries both are read off the characters up to the offset, and a slice of the text is
what two such prefixes differ by. -/

namespace SourceBlocks.Text

/-- The characters that end at or before a byte offset. -/
def charsBefore : List Char → Nat → List Char
  | [], _ => []
  | c :: cs, offset =>
    if c.utf8Size ≤ offset then c :: charsBefore cs (offset - c.utf8Size) else []

/-- How many newlines stand before a byte offset. -/
def newlinesBefore (cs : List Char) (offset : Nat) : Nat := newlines (charsBefore cs offset)

/-- How many bytes stand between the last newline before a byte offset and the offset. -/
def columnAt (cs : List Char) (offset : Nat) : Nat :=
  byteLength ((charsBefore cs offset).reverse.takeWhile (· != '\n'))

/-! ## Lengths -/

theorem byteLength_append (xs ys : List Char) :
    byteLength (xs ++ ys) = byteLength xs + byteLength ys := by
  induction xs with
  | nil => rw [List.nil_append, byteLength_nil, Nat.zero_add]
  | cons c cs ih => rw [List.cons_append, byteLength_cons, byteLength_cons, ih, Nat.add_assoc]

theorem newlines_append (xs ys : List Char) : newlines (xs ++ ys) = newlines xs + newlines ys :=
  List.count_append

theorem newlines_cons (c : Char) (cs : List Char) :
    newlines (c :: cs) = newlines cs + if c = '\n' then 1 else 0 := by
  by_cases h : c = '\n'
  · subst h; simp [newlines]
  · simp [newlines, h]

theorem eq_nil_of_byteLength_eq_zero {cs : List Char} (h : byteLength cs = 0) : cs = [] := by
  cases cs with
  | nil => rfl
  | cons c cs =>
    have hc := c.utf8Size_pos
    rw [byteLength_cons] at h
    omega

/-! ## Prefixes -/

/-- An offset inside or at the start of the first character of `ys` has exactly `xs` before it. -/
theorem charsBefore_append {xs ys : List Char} {offset : Nat} (hl : byteLength xs ≤ offset)
    (hr : ∀ y ∈ ys.head?, offset < byteLength xs + y.utf8Size) :
    charsBefore (xs ++ ys) offset = xs := by
  induction xs generalizing offset with
  | nil =>
    cases ys with
    | nil => rfl
    | cons y ys =>
      have hy := hr y rfl
      rw [byteLength_nil, Nat.zero_add] at hy
      simp [charsBefore, Nat.not_le.2 hy]
  | cons x xs ih =>
    rw [byteLength_cons] at hl hr
    have hx : x.utf8Size ≤ offset := by omega
    have hrest : charsBefore (xs ++ ys) (offset - x.utf8Size) = xs :=
      ih (by omega) fun y hy => by have := hr y hy; omega
    simp [charsBefore, hx, hrest]

theorem charsBefore_byteLength (xs ys : List Char) :
    charsBefore (xs ++ ys) (byteLength xs) = xs :=
  charsBefore_append (Nat.le_refl _) fun y _ => by have := y.utf8Size_pos; omega

theorem newlinesBefore_zero (cs : List Char) : newlinesBefore cs 0 = 0 := by
  have hnil : charsBefore cs 0 = [] := charsBefore_byteLength [] cs
  rw [newlinesBefore, hnil]
  rfl

/-- The last byte of a prefix belongs to its last character. -/
theorem charsBefore_concat_pred (xs ys : List Char) (c : Char) :
    charsBefore ((xs ++ [c]) ++ ys) (byteLength (xs ++ [c]) - 1) = xs := by
  have hc := c.utf8Size_pos
  have hl : byteLength (xs ++ [c]) = byteLength xs + c.utf8Size := by
    rw [byteLength_append, byteLength_cons, byteLength_nil, Nat.add_zero]
  rw [hl, List.append_assoc]
  apply charsBefore_append
  · omega
  · intro y hy
    obtain rfl : c = y := by simpa using hy
    omega

theorem charsBefore_mono (cs : List Char) {m n : Nat} (h : m ≤ n) :
    charsBefore cs m <+: charsBefore cs n := by
  induction cs generalizing m n with
  | nil => exact List.prefix_rfl
  | cons c cs ih =>
    simp only [charsBefore]
    by_cases hm : c.utf8Size ≤ m
    · rw [if_pos hm, if_pos (Nat.le_trans hm h)]
      exact List.cons_prefix_cons.2 ⟨rfl, ih (by omega)⟩
    · rw [if_neg hm]
      exact List.nil_prefix

theorem newlinesBefore_mono (cs : List Char) {m n : Nat} (h : m ≤ n) :
    newlinesBefore cs m ≤ newlinesBefore cs n :=
  (charsBefore_mono cs h).sublist.count_le '\n'

/-! ## Character boundaries -/

theorem charIndex?_go_eq {cs : List Char} {offset i k : Nat}
    (h : charIndex?.go cs offset k = some i) :
    ∃ j, i = k + j ∧ j ≤ cs.length ∧ byteLength (cs.take j) = offset := by
  induction cs generalizing offset k with
  | nil =>
    cases offset with
    | zero => exact ⟨0, by simpa [charIndex?.go] using h.symm, by simp, by simp [byteLength_nil]⟩
    | succ n => simp [charIndex?.go] at h
  | cons c cs ih =>
    cases offset with
    | zero => exact ⟨0, by simpa [charIndex?.go] using h.symm, by simp, by simp [byteLength_nil]⟩
    | succ n =>
      simp only [charIndex?.go] at h
      split at h
      · obtain ⟨j, rfl, hj, hb⟩ := ih h
        refine ⟨j + 1, by omega, by simpa using hj, ?_⟩
        rw [List.take_succ_cons, byteLength_cons, hb]
        omega
      · simp at h

/-- A boundary cuts the text into the characters before it and those after it. -/
theorem take_of_charIndex? {cs : List Char} {offset i : Nat} (h : charIndex? cs offset = some i) :
    i ≤ cs.length ∧ byteLength (cs.take i) = offset ∧ charsBefore cs offset = cs.take i := by
  obtain ⟨j, rfl, hj, hb⟩ := charIndex?_go_eq h
  rw [Nat.zero_add]
  refine ⟨hj, hb, ?_⟩
  have := charsBefore_byteLength (cs.take j) (cs.drop j)
  rwa [List.take_append_drop, hb] at this

theorem byteLength_take_lt {cs : List Char} {i j : Nat} (hij : i < j) (hj : j ≤ cs.length) :
    byteLength (cs.take i) < byteLength (cs.take j) := by
  have hs : cs.take j = cs.take i ++ (cs.drop i).take (j - i) := by
    rw [← List.take_add, Nat.add_sub_cancel' (Nat.le_of_lt hij)]
  have hne : (cs.drop i).take (j - i) ≠ [] := by
    intro h
    have := congrArg List.length h
    simp only [List.length_take, List.length_drop, List.length_nil] at this
    omega
  have hpos : byteLength ((cs.drop i).take (j - i)) ≠ 0 :=
    fun h => hne (eq_nil_of_byteLength_eq_zero h)
  rw [hs, byteLength_append]
  omega

/-- A slice extends the characters before its start to the characters before its stop. -/
theorem charsBefore_stop_of_sliceChars? {cs content : List Char} {start stop : Nat}
    (h : sliceChars? cs start stop = some content) :
    charsBefore cs stop = charsBefore cs start ++ content ∧
      byteLength (charsBefore cs stop) = stop ∧ charsBefore cs stop <+: cs := by
  simp only [sliceChars?] at h
  split at h
  case isFalse => simp at h
  case isTrue hle =>
    cases hi : charIndex? cs start with
    | none => simp [hi] at h
    | some i =>
      cases hj : charIndex? cs stop with
      | none => simp [hi, hj] at h
      | some j =>
        simp only [hi, hj, Option.some.injEq] at h
        obtain ⟨hil, hib, hip⟩ := take_of_charIndex? hi
        obtain ⟨hjl, hjb, hjp⟩ := take_of_charIndex? hj
        have hij : i ≤ j := by
          rcases Nat.lt_or_ge j i with hlt | hij
          · have := byteLength_take_lt hlt hil
            omega
          · exact hij
        have hs : cs.take j = cs.take i ++ (cs.drop i).take (j - i) := by
          rw [← List.take_add, Nat.add_sub_cancel' hij]
        rw [hip, hjp, ← h]
        exact ⟨hs, hjb, List.take_prefix j cs⟩

theorem isInfix_of_sliceChars? {cs content : List Char} {start stop : Nat}
    (h : sliceChars? cs start stop = some content) : content <:+: cs := by
  obtain ⟨hstop, -, hprefix⟩ := charsBefore_stop_of_sliceChars? h
  have hsuffix : content <:+ charsBefore cs stop := ⟨charsBefore cs start, hstop.symm⟩
  exact hsuffix.isInfix.trans hprefix.isInfix

/-- A slice of a range inside another stands in the slice of that one. -/
theorem sliceChars?_isInfix {cs inner outer : List Char} {start stop first last : Nat}
    (hinner : sliceChars? cs start stop = some inner)
    (houter : sliceChars? cs first last = some outer) (hstart : first ≤ start)
    (hstop : stop ≤ last) : inner <:+: outer := by
  obtain ⟨hinner, -, -⟩ := charsBefore_stop_of_sliceChars? hinner
  obtain ⟨houter, -, -⟩ := charsBefore_stop_of_sliceChars? houter
  obtain ⟨before, hbefore⟩ := charsBefore_mono cs hstart
  obtain ⟨after, hafter⟩ := charsBefore_mono cs hstop
  have hwhole : charsBefore cs first ++ (before ++ inner ++ after) =
      charsBefore cs first ++ outer := by
    rw [← houter, ← hafter, hinner, ← hbefore]
    simp only [List.append_assoc]
  exact ⟨before, after, List.append_cancel_left hwhole⟩

/-- The last byte of a slice stands in its last character, behind all others of the slice. -/
theorem charsBefore_last_of_sliceChars? {cs content : List Char} {start stop : Nat}
    (h : sliceChars? cs start stop = some content) (hne : content ≠ []) :
    ∃ xs c, charsBefore cs stop = xs ++ [c] ∧ charsBefore cs (stop - 1) = xs ∧
      charsBefore cs start <+: xs ∧ xs ++ [c] <+: cs := by
  obtain ⟨hstop, hlen, ys, hys⟩ := charsBefore_stop_of_sliceChars? h
  rcases List.eq_nil_or_concat content with rfl | ⟨init, c, rfl⟩
  · exact absurd rfl hne
  · rw [List.concat_eq_append, ← List.append_assoc] at hstop
    refine ⟨charsBefore cs start ++ init, c, hstop, ?_, List.prefix_append _ _, ?_⟩
    · have hpred := charsBefore_concat_pred (charsBefore cs start ++ init) ys c
      rwa [← hstop, hys, hlen] at hpred
    · exact ⟨ys, hstop ▸ hys⟩

/-- Offsets on character boundaries, in order, bound a slice. -/
theorem sliceChars?_isSome {cs : List Char} {start stop : Nat} (hle : start ≤ stop)
    (hs : (charIndex? cs start).isSome) (ht : (charIndex? cs stop).isSome) :
    ∃ content, sliceChars? cs start stop = some content := by
  obtain ⟨i, hi⟩ := Option.isSome_iff_exists.1 hs
  obtain ⟨j, hj⟩ := Option.isSome_iff_exists.1 ht
  exact ⟨_, by simp only [sliceChars?, if_pos hle, hi, hj]; rfl⟩

theorem sliceChars?_whole (cs : List Char) : sliceChars? cs 0 (byteLength cs) = some cs := by
  have hgo : ∀ (cs : List Char) (k : Nat),
      charIndex?.go cs (byteLength cs) k = some (k + cs.length) := by
    intro cs
    induction cs with
    | nil => intro k; rfl
    | cons c cs ih =>
      intro k
      have hc := c.utf8Size_pos
      obtain ⟨n, hn⟩ : ∃ n, byteLength (c :: cs) = n + 1 :=
        ⟨byteLength (c :: cs) - 1, by rw [byteLength_cons]; omega⟩
      have hle : c.utf8Size ≤ n + 1 := by rw [← hn, byteLength_cons]; omega
      have hrest : n + 1 - c.utf8Size = byteLength cs := by rw [← hn, byteLength_cons]; omega
      rw [hn, charIndex?.go, if_pos hle, hrest, ih]
      simp only [List.length_cons, Option.some.injEq]
      omega
  have h0 : charIndex? cs 0 = some 0 := by cases cs <;> rfl
  have h1 : charIndex? cs (byteLength cs) = some cs.length := by
    rw [charIndex?, hgo, Nat.zero_add]
  simp [sliceChars?, h0, h1]

/-! ## Columns -/

/-- An offset right behind a newline has column zero. -/
theorem columnAt_of_newline {cs xs : List Char} {offset : Nat}
    (h : charsBefore cs offset = xs ++ ['\n']) : columnAt cs offset = 0 := by
  simp [columnAt, h, byteLength_nil]

theorem columnAt_pos {cs xs : List Char} {offset : Nat} {c : Char}
    (h : charsBefore cs offset = xs ++ [c]) (hc : c ≠ '\n') : 0 < columnAt cs offset := by
  have hpos := c.utf8Size_pos
  have hcol : columnAt cs offset =
      byteLength (c :: xs.reverse.takeWhile (· != '\n')) := by
    simp [columnAt, h, hc]
  rw [hcol, byteLength_cons]
  omega

/-! ## The number of lines -/

theorem length_charLines_cons {c : Char} {cs : List Char} (h : charLines cs ≠ []) :
    (charLines (c :: cs)).length = (charLines cs).length + if c = '\n' then 1 else 0 := by
  simp only [charLines, List.foldr_cons] at h ⊢
  generalize cs.foldr LineScan.cons ⟨[], false⟩ = rest at h ⊢
  obtain ⟨ls, atBreak⟩ := rest
  simp only [LineScan.cons]
  split
  · simp
  · split
    · simp
    · cases ls with
      | nil => exact absurd rfl h
      | cons l ls => simp

/-- The last character of a text stands on its last line. -/
theorem length_charLines_concat (cs : List Char) (c : Char) :
    (charLines (cs ++ [c])).length = newlines cs + 1 := by
  induction cs with
  | nil =>
    by_cases h : c = '\n'
    · subst h; rfl
    · simp [charLines, LineScan.cons, h, newlines]
  | cons d cs ih =>
    have hne : charLines (cs ++ [c]) ≠ [] := by
      intro h
      rw [h, List.length_nil] at ih
      omega
    rw [List.cons_append, length_charLines_cons hne, ih, newlines_cons]
    omega

/-- Only a text without characters is counted for a line that it does not have. -/
theorem lineCount_eq_length_lines {text : String} (h : text.toList ≠ []) :
    lineCount text = (lines text).length := by
  have hlast : text.toList.dropLast ++ [text.toList.getLast h] = text.toList :=
    List.dropLast_concat_getLast h
  have hcount := length_charLines_concat text.toList.dropLast (text.toList.getLast h)
  rw [hlast] at hcount
  rw [lineCount, lines, List.length_map]
  omega

/-- No character of a text stands behind its last line. -/
theorem newlines_lt_length_charLines {cs xs : List Char} {c : Char} (h : xs ++ [c] <+: cs) :
    newlines xs < (charLines cs).length := by
  obtain ⟨ys, rfl⟩ := h
  rcases List.eq_nil_or_concat ys with rfl | ⟨zs, d, rfl⟩
  · rw [List.append_nil, length_charLines_concat]
    omega
  · rw [List.concat_eq_append, ← List.append_assoc, length_charLines_concat, newlines_append,
      newlines_append]
    omega

end SourceBlocks.Text
