import Mathlib.Data.List.Infix
import SourceBlocks.Proofs.Text.Offsets

/-! # Lines and what is cut off them

A line ends before a newline, or before a carriage return and a newline. Lines that are joined by
newlines again are the piece of the text that they came from, without the carriage returns that
stood before its newlines. -/

namespace SourceBlocks.Text

/-- What ends a line: a newline with the carriage return before it, if there is one. -/
def IsEnding (line ending : List Char) : Prop :=
  ending = ['\r', '\n'] ∨ ending = ['\n'] ∧ line.getLast? ≠ some '\r'

/-- The lines that a text is made of. -/
inductive LinesOf : List Char → List (List Char) → Prop
  | nil : LinesOf [] []
  | last {line : List Char} : line ≠ [] → '\n' ∉ line → LinesOf line [line]
  | more {line ending rest : List Char} {lines : List (List Char)} : '\n' ∉ line →
      IsEnding line ending → LinesOf rest lines → LinesOf (line ++ ending ++ rest) (line :: lines)

namespace IsEnding

variable {line ending : List Char}

theorem newlines_eq (h : IsEnding line ending) : newlines ending = 1 := by
  rcases h with rfl | ⟨rfl, -⟩
  · decide
  · decide

theorem getLast? (h : IsEnding line ending) : ending.getLast? = some '\n' := by
  rcases h with rfl | ⟨rfl, -⟩
  · rfl
  · rfl

theorem tail {c : Char} (h : IsEnding (c :: line) ending) : IsEnding line ending := by
  rcases h with rfl | ⟨rfl, hlast⟩
  · exact Or.inl rfl
  · refine Or.inr ⟨rfl, ?_⟩
    cases line with
    | nil => simp
    | cons d line => rwa [List.getLast?_cons_cons] at hlast

/-- The first line of a text takes one more character in front, unless that makes the character part
of an ending. -/
theorem cons {c : Char} {rest : List Char} (h : IsEnding line ending)
    (hc : ¬ (c = '\r' ∧ (line ++ ending ++ rest).head? = some '\n')) :
    IsEnding (c :: line) ending := by
  rcases h with rfl | ⟨rfl, hlast⟩
  · exact Or.inl rfl
  · refine Or.inr ⟨rfl, ?_⟩
    cases line with
    | nil => simpa using hc
    | cons d line => rwa [List.getLast?_cons_cons]

/-- Whole lines in front of a piece leave its ending an ending. -/
theorem prepend {before piece : List Char} (h : IsEnding piece ending)
    (hbefore : before.getLast? = some '\n') : IsEnding (before ++ piece) ending := by
  rcases h with rfl | ⟨rfl, hlast⟩
  · exact Or.inl rfl
  · refine Or.inr ⟨rfl, ?_⟩
    rw [List.getLast?_append, hbefore]
    cases hpiece : piece.getLast? with
    | none => simp
    | some c => simpa [hpiece] using hlast

end IsEnding

theorem newlines_eq_zero {line : List Char} (h : '\n' ∉ line) : newlines line = 0 :=
  List.count_eq_zero.2 h

namespace LinesOf

variable {cs : List Char} {lines : List (List Char)}

theorem eq_nil (h : LinesOf cs []) : cs = [] := by
  generalize hlines : ([] : List (List Char)) = lines at h
  cases h with
  | nil => rfl
  | last => simp at hlines
  | more => simp at hlines

/-- The first line is the text up to its first ending. -/
theorem first {line : List Char} (h : LinesOf cs (line :: lines)) : '\n' ∉ line ∧ line <+: cs := by
  cases h with
  | last _ hline => exact ⟨hline, List.prefix_rfl⟩
  | more hline _ _ =>
    rw [List.append_assoc]
    exact ⟨hline, List.prefix_append _ _⟩

/-- A text that starts with a newline starts with an empty line. -/
theorem of_newline (h : LinesOf ('\n' :: cs) lines) : ∃ rest, lines = [] :: rest ∧ LinesOf cs rest := by
  generalize htext : '\n' :: cs = text at h
  cases h with
  | nil => simp at htext
  | last _ hline => exact absurd (htext ▸ List.mem_cons_self) hline
  | @more line ending rest lines hline hending hrest =>
    cases line with
    | cons c line =>
      obtain ⟨rfl, -⟩ := List.cons.inj htext
      exact absurd List.mem_cons_self hline
    | nil =>
      rcases hending with rfl | ⟨rfl, -⟩
      · simp at htext
      · obtain ⟨-, rfl⟩ := List.cons.inj htext
        exact ⟨lines, rfl, hrest⟩

theorem cons {c : Char} {line : List Char} (h : LinesOf cs (line :: lines)) (hc : c ≠ '\n')
    (hreturn : ¬ (c = '\r' ∧ cs.head? = some '\n')) :
    LinesOf (c :: cs) ((c :: line) :: lines) := by
  have hmem : ∀ {line : List Char}, '\n' ∉ line → '\n' ∉ c :: line := by
    intro line hline hin
    rcases List.mem_cons.1 hin with heq | hin
    · exact hc heq.symm
    · exact hline hin
  cases h with
  | last hne hline => exact .last (by simp) (hmem hline)
  | more hline hending hrest => exact .more (hmem hline) (hending.cons hreturn) hrest

end LinesOf

theorem scan_linesOf (cs : List Char) :
    let scan := cs.foldr LineScan.cons ⟨[], false⟩
    LinesOf cs scan.lines ∧ (scan.atBreak = true ↔ cs.head? = some '\n') := by
  induction cs with
  | nil => exact ⟨.nil, by simp⟩
  | cons c cs ih =>
    rw [List.foldr_cons]
    generalize cs.foldr LineScan.cons ⟨[], false⟩ = scan at ih ⊢
    obtain ⟨hlines, hbreak⟩ := ih
    dsimp only [LineScan.cons]
    by_cases hnewline : c = '\n'
    · subst hnewline
      rw [if_pos rfl]
      exact ⟨@LinesOf.more [] ['\n'] cs _ (by simp) (Or.inr ⟨rfl, by simp⟩) hlines, by simp⟩
    · rw [if_neg hnewline]
      by_cases hreturn : c = '\r' ∧ scan.atBreak = true
      · -- the carriage return goes with the newline that follows
        obtain ⟨rfl, hat⟩ := hreturn
        obtain ⟨rest, rfl⟩ : ∃ rest, cs = '\n' :: rest :=
          ⟨cs.tail, List.eq_cons_of_mem_head? (hbreak.1 hat)⟩
        obtain ⟨lines, hscan, hrest⟩ := hlines.of_newline
        rw [if_pos (by simp [hat]), hscan]
        exact ⟨@LinesOf.more [] ['\r', '\n'] rest lines (by simp) (Or.inl rfl) hrest, by simp⟩
      · rw [if_neg (by simpa using hreturn)]
        rw [hbreak] at hreturn
        cases hscan : scan.lines with
        | nil =>
          rw [hscan] at hlines
          rw [hlines.eq_nil]
          refine ⟨.last (by simp) ?_, by simpa using hnewline⟩
          simpa using fun h : '\n' = c => hnewline h.symm
        | cons line lines =>
          rw [hscan] at hlines
          exact ⟨hlines.cons hnewline hreturn, by simpa using hnewline⟩

/-- The lines of a text are the lines that it is made of. -/
theorem linesOf_charLines (cs : List Char) : LinesOf cs (charLines cs) := (scan_linesOf cs).1

theorem charLines_eq_nil_iff {cs : List Char} : charLines cs = [] ↔ cs = [] := by
  constructor
  · intro hnil
    have hlines := linesOf_charLines cs
    rw [hnil] at hlines
    exact hlines.eq_nil
  · rintro rfl
    exact charLines_nil

/-! ## Carriage returns before newlines -/

/-- The text without one carriage return before each newline. -/
def dropReturns : List Char → List Char
  | [] => []
  | c :: cs => if c = '\r' ∧ cs.head? = some '\n' then dropReturns cs else c :: dropReturns cs

theorem dropReturns_of_not_mem {line : List Char} (h : '\n' ∉ line) : dropReturns line = line := by
  induction line with
  | nil => rfl
  | cons c line ih =>
    have hline : '\n' ∉ line := fun hin => h (List.mem_cons_of_mem _ hin)
    have hhead : ¬ (c = '\r' ∧ line.head? = some '\n') :=
      fun hc => hline (List.mem_of_mem_head? hc.2)
    rw [dropReturns, if_neg hhead, ih hline]

/-- An ending comes down to its newline. -/
theorem dropReturns_append {line ending : List Char} (rest : List Char) (hline : '\n' ∉ line)
    (hending : IsEnding line ending) :
    dropReturns (line ++ ending ++ rest) = line ++ '\n' :: dropReturns rest := by
  induction line with
  | nil =>
    rcases hending with rfl | ⟨rfl, -⟩
    · simp [dropReturns]
    · simp [dropReturns]
  | cons c line ih =>
    have hline' : '\n' ∉ line := fun hin => hline (List.mem_cons_of_mem _ hin)
    have hhead : ¬ (c = '\r' ∧ (line ++ ending ++ rest).head? = some '\n') := by
      rintro ⟨rfl, hhead⟩
      cases line with
      | nil =>
        rcases hending with rfl | ⟨rfl, hlast⟩
        · simp at hhead
        · exact hlast rfl
      | cons d line =>
        obtain rfl : d = '\n' := by simpa using hhead
        exact hline' List.mem_cons_self
    rw [List.cons_append, List.cons_append, dropReturns, if_neg hhead, ih hline' hending.tail,
      List.cons_append]

theorem length_dropReturns_le (cs : List Char) : (dropReturns cs).length ≤ cs.length := by
  induction cs with
  | nil => exact Nat.le_refl _
  | cons c cs ih =>
    rw [dropReturns]
    split
    · exact Nat.le_succ_of_le ih
    · exact Nat.succ_le_succ ih

/-- Nothing is dropped just when no carriage return stands before a newline. -/
theorem dropReturns_eq_self_iff (cs : List Char) :
    dropReturns cs = cs ↔ ¬ ['\r', '\n'] <:+: cs := by
  induction cs with
  | nil => simp [dropReturns]
  | cons c cs ih =>
    have hpair : ['\r', '\n'] <+: c :: cs ↔ c = '\r' ∧ cs.head? = some '\n' := by
      rw [List.cons_prefix_cons, eq_comm]
      cases cs with
      | nil => simp
      | cons d cs => simp [List.cons_prefix_cons, eq_comm]
    rw [List.infix_cons_iff, hpair, dropReturns]
    by_cases h : c = '\r' ∧ cs.head? = some '\n'
    · have hshort := length_dropReturns_le cs
      rw [if_pos h]
      refine iff_of_false (fun heq => ?_) (not_not.2 (Or.inl h))
      rw [heq, List.length_cons] at hshort
      omega
    · rw [if_neg h, List.cons.injEq, ih]
      simp [h]

/-! ## The piece of a text on some of its lines -/

/-- The text holds the piece on its lines from `first` to `last`, up to the ending of the last. -/
def OnLines (cs : List Char) (first last : Nat) (piece : List Char) : Prop :=
  ∃ before after, cs = before ++ piece ++ after ∧
    newlines before = first ∧ (before = [] ∨ before.getLast? = some '\n') ∧
    newlines piece = last - first ∧
    (after = [] ∨ ∃ ending rest, after = ending ++ rest ∧ IsEnding piece ending)

theorem OnLines.isInfix {cs piece : List Char} {first last : Nat} (h : OnLines cs first last piece) :
    piece <:+: cs := by
  obtain ⟨before, after, rfl, -⟩ := h
  exact ⟨before, after, rfl⟩

theorem OnLines.single {line ending rest : List Char} (hline : '\n' ∉ line)
    (hending : IsEnding line ending) : OnLines (line ++ ending ++ rest) 0 0 line :=
  ⟨[], ending ++ rest, by simp, by rfl, Or.inl rfl, newlines_eq_zero hline,
    Or.inr ⟨ending, rest, rfl, hending⟩⟩

/-- A piece on the first lines, with one more line in front. -/
theorem OnLines.cons {line ending rest piece : List Char} {last : Nat} (hline : '\n' ∉ line)
    (hending : IsEnding line ending) (h : OnLines rest 0 last piece) :
    OnLines (line ++ ending ++ rest) 0 (last + 1) (line ++ ending ++ piece) := by
  obtain ⟨before, after, rfl, hbefore, hstart, hpiece, hafter⟩ := h
  have hnil : before = [] := by
    rcases hstart with hnil | hlast
    · exact hnil
    · have hmem : '\n' ∈ before := List.mem_of_getLast? hlast
      have hpos := List.count_pos_iff.2 hmem
      rw [newlines] at hbefore
      omega
  subst hnil
  refine ⟨[], after, by simp, rfl, Or.inl rfl, ?_, hafter.imp_right ?_⟩
  · rw [newlines_append, newlines_append, newlines_eq_zero hline, hending.newlines_eq, hpiece]
    omega
  · rintro ⟨ending', rest', rfl, hending'⟩
    refine ⟨ending', rest', rfl, hending'.prepend ?_⟩
    rw [List.getLast?_append, hending.getLast?]
    rfl

/-- A piece keeps its place when a line is put in front of the text. -/
theorem OnLines.shift {line ending rest piece : List Char} {first last : Nat} (hline : '\n' ∉ line)
    (hending : IsEnding line ending) (h : OnLines rest first last piece) :
    OnLines (line ++ ending ++ rest) (first + 1) (last + 1) piece := by
  obtain ⟨before, after, rfl, hbefore, hstart, hpiece, hafter⟩ := h
  refine ⟨line ++ ending ++ before, after, by simp, ?_, Or.inr ?_, by omega, hafter⟩
  · rw [newlines_append, newlines_append, newlines_eq_zero hline, hending.newlines_eq, hbefore]
    omega
  · rw [List.getLast?_append, List.getLast?_append, hending.getLast?]
    rcases hstart with rfl | hlast
    · rfl
    · rw [hlast]
      rfl

/-- Lines that are joined by newlines are a piece of the text without its carriage returns. -/
theorem LinesOf.exists_piece {cs : List Char} {lines : List (List Char)} (h : LinesOf cs lines) :
    ∀ {first last : Nat}, first ≤ last → last < lines.length →
      ∃ piece, OnLines cs first last piece ∧
        List.intercalate ['\n'] ((lines.drop first).take (last + 1 - first)) = dropReturns piece := by
  induction h with
  | nil =>
    intro first last _ hlast
    simp at hlast
  | @last line hne hline =>
    intro first last hfirst hlast
    obtain rfl : last = 0 := by simpa using hlast
    obtain rfl : first = 0 := by omega
    refine ⟨line, ⟨[], [], by simp, rfl, Or.inl rfl, newlines_eq_zero hline, Or.inl rfl⟩, ?_⟩
    simp [dropReturns_of_not_mem hline]
  | @more line ending rest lines hline hending hrest ih =>
    intro first last hfirst hlast
    cases first with
    | succ first =>
      obtain ⟨last, rfl⟩ : ∃ n, last = n + 1 := ⟨last - 1, by omega⟩
      obtain ⟨piece, hpiece, hjoin⟩ := ih (Nat.le_of_succ_le_succ hfirst) (by simpa using hlast)
      refine ⟨piece, hpiece.shift hline hending, ?_⟩
      rw [List.drop_succ_cons, show last + 1 + 1 - (first + 1) = last + 1 - first by omega, hjoin]
    | zero =>
      cases last with
      | zero =>
        refine ⟨line, .single hline hending, ?_⟩
        simp [dropReturns_of_not_mem hline]
      | succ last =>
        obtain ⟨piece, hpiece, hjoin⟩ := ih (Nat.zero_le last) (by simpa using hlast)
        refine ⟨line ++ ending ++ piece, hpiece.cons hline hending, ?_⟩
        rw [dropReturns_append piece hline hending, ← hjoin]
        cases lines with
        | nil => simp at hlast
        | cons next lines => simp [List.intercalate_cons_cons]

/-- Every character is on some line or part of an ending. -/
theorem LinesOf.mem_line {cs : List Char} {lines : List (List Char)} (h : LinesOf cs lines)
    {c : Char} (hc : c ∈ cs) : c = '\n' ∨ c = '\r' ∨ ∃ line ∈ lines, c ∈ line := by
  induction h with
  | nil => simp at hc
  | @last line _ _ => exact Or.inr (Or.inr ⟨line, List.mem_singleton_self line, hc⟩)
  | @more line ending rest lines _ hending _ ih =>
    rcases List.mem_append.1 hc with hc | hc
    · rcases List.mem_append.1 hc with hc | hc
      · exact Or.inr (Or.inr ⟨line, List.mem_cons_self, hc⟩)
      · rcases hending with rfl | ⟨rfl, -⟩
        · simp only [List.mem_cons, List.not_mem_nil, or_false] at hc
          exact hc.symm.imp_right Or.inl
        · exact Or.inl (List.mem_singleton.1 hc)
    · rcases ih hc with h | h | ⟨l, hl, hin⟩
      · exact Or.inl h
      · exact Or.inr (Or.inl h)
      · exact Or.inr (Or.inr ⟨l, List.mem_cons_of_mem _ hl, hin⟩)

end SourceBlocks.Text
