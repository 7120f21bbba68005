/-! # Globs

`?` stands for one character and `*` for any run, slashes included; brackets list characters and
ranges, or exclude them after `!`; a component `**` stands for any number of components. There are no
escapes. -/

namespace SourceBlocks

inductive CharRange where
  | single (c : Char)
  | range (lo hi : Char)
  deriving DecidableEq, Repr

def CharRange.contains (r : CharRange) (c : Char) : Bool :=
  match r with
  | single d => c == d
  | range lo hi => decide (lo ≤ c) && decide (c ≤ hi)

/-- One part of a glob. -/
inductive GlobToken where
  | literal (c : Char)
  | anyChar
  | within (ranges : List CharRange)
  | except (ranges : List CharRange)
  | anyRun
  | anyComponents
  deriving DecidableEq, Repr

namespace GlobToken

/-- The character passes a token that stands for one character. -/
def admits (t : GlobToken) (c : Char) : Bool :=
  match t with
  | literal d => c == d
  | anyChar => true
  | within ranges => ranges.any (·.contains c)
  | except ranges => !ranges.any (·.contains c)
  | anyRun | anyComponents => false

def ranges : List Char → List CharRange
  | a :: '-' :: b :: rest => .range a b :: ranges rest
  | a :: rest => .single a :: ranges rest
  | [] => []

/-- A bracket list after its first character, up to the bracket that closes it, and what follows. -/
def closeBracket (first : Char) (rest : List Char) : Option (List CharRange × List Char) :=
  match rest.dropWhile (· != ']') with
  | [] => none
  | _ :: after => some (ranges (first :: rest.takeWhile (· != ']')), after)

theorem length_closeBracket {first : Char} {rest after : List Char} {rs : List CharRange}
    (h : closeBracket first rest = some (rs, after)) : after.length < rest.length := by
  unfold closeBracket at h
  split at h
  · simp at h
  · next c tail heq =>
    simp only [Option.some.injEq, Prod.mk.injEq] at h
    have := (List.dropWhile_sublist (l := rest) (· != ']')).length_le
    rw [heq, List.length_cons, h.2] at this
    omega

/-- Reads a glob whose characters follow one of its own, or none at the start. -/
def parse (before : Option Char) (cs : List Char) : Option (List GlobToken) :=
  match cs with
  | [] => some []
  | '?' :: rest => (parse (some '?') rest).map (anyChar :: ·)
  | '*' :: '*' :: rest =>
    if before = none || before = some '/' then
      match rest with
      | [] => some [anyComponents]
      | '/' :: rest => (parse (some '/') rest).map (anyComponents :: ·)
      | _ => none
    else none
  | '*' :: rest => (parse (some '*') rest).map (anyRun :: ·)
  | '[' :: '!' :: c :: rest =>
    match _closed : closeBracket c rest with
    | some (rs, after) => (parse (some ']') after).map (except rs :: ·)
    | none => none
  | ['[', '!'] => none
  | '[' :: c :: rest =>
    match _closed : closeBracket c rest with
    | some (rs, after) => (parse (some ']') after).map (within rs :: ·)
    | none => none
  | ['['] => none
  | c :: rest => (parse (some c) rest).map (literal c :: ·)
termination_by cs.length
decreasing_by
  · simp
  · simp only [List.length_cons]; omega
  · simp
  · have := length_closeBracket _closed
    simp only [List.length_cons]; omega
  · have := length_closeBracket _closed
    simp only [List.length_cons]; omega
  · simp

/-- What is left of a list after each of its slashes. -/
def afterSlashes : List Char → List (List Char)
  | [] => []
  | c :: cs => if c == '/' then cs :: afterSlashes cs else afterSlashes cs

/-- What is left of a list after each number of its characters, all of them first. -/
def tails : List Char → List (List Char)
  | [] => [[]]
  | c :: cs => (c :: cs) :: tails cs

def matchAll : List GlobToken → List Char → Bool
  | [], cs => cs.isEmpty
  | anyRun :: ts, cs => (tails cs).any (matchAll ts)
  | anyComponents :: ts, cs => (cs :: afterSlashes cs ++ [[]]).any (matchAll ts)
  | _ :: _, [] => false
  | t :: ts, c :: cs => t.admits c && matchAll ts cs

/-! ## One answer for each tail

A glob with many runs has many ways to share out a text among them. The answers for all tails of the
text, worked out from the last token to the first, need one pass over the text for each token. -/

/-- At each place, whether there or later in the list there is `true`. -/
def orLater : List Bool → List Bool
  | [] => []
  | b :: bs =>
    let later := orLater bs
    (b || later.headD false) :: later

/-- At each place of a text, whether the tail after one of the slashes from there on, or the empty
one, has the answer `true`. -/
def orAfterSlash : List Char → List Bool → List Bool
  | c :: cs, _ :: answers =>
    let later := orAfterSlash cs answers
    ((c == '/' && answers.headD false) || later.headD false) :: later
  | _, answers => [answers.headD false]

/-- At each place of a text, whether its character passes and the tail after it has the answer
`true`. -/
def afterAdmitted (t : GlobToken) : List Char → List Bool → List Bool
  | c :: cs, _ :: answers => (t.admits c && answers.headD false) :: afterAdmitted t cs answers
  | _, _ => [false]

/-- The answers for one more token in front. -/
def answersBefore (cs : List Char) (t : GlobToken) (answers : List Bool) : List Bool :=
  match t with
  | anyRun => orLater answers
  | anyComponents => answers.zipWith or (orAfterSlash cs answers)
  | t => afterAdmitted t cs answers

/-- Whether the tokens match, for each tail of a text. -/
def answers (ts : List GlobToken) (cs : List Char) : List Bool :=
  ts.foldr (answersBefore cs) ((tails cs).map List.isEmpty)

theorem headD_map_tails (f : List Char → Bool) (cs : List Char) :
    ((tails cs).map f).headD false = f cs := by
  cases cs <;> rfl

theorem orLater_tails (f : List Char → Bool) (cs : List Char) :
    orLater ((tails cs).map f) = (tails cs).map fun cs => (tails cs).any f := by
  induction cs with
  | nil => simp [tails, orLater]
  | cons c cs ih => simp only [tails, List.map_cons, orLater, ih, headD_map_tails, List.any_cons]

theorem orAfterSlash_tails (f : List Char → Bool) (cs : List Char) :
    orAfterSlash cs ((tails cs).map f)
      = (tails cs).map fun cs => (afterSlashes cs ++ [[]]).any f := by
  induction cs with
  | nil => simp [tails, orAfterSlash, afterSlashes]
  | cons c cs ih =>
    simp only [tails, List.map_cons, orAfterSlash, ih, headD_map_tails, afterSlashes]
    by_cases h : c == '/' <;> simp [h]

theorem zipWith_or_tails (f g : List Char → Bool) (cs : List Char) :
    ((tails cs).map f).zipWith or ((tails cs).map g) = (tails cs).map fun cs => f cs || g cs := by
  simp [List.zipWith_map, List.zipWith_self]

theorem afterAdmitted_tails (t : GlobToken) (f : List Char → Bool) (cs : List Char) :
    afterAdmitted t cs ((tails cs).map f) = (tails cs).map fun
      | [] => false
      | c :: cs => t.admits c && f cs := by
  induction cs with
  | nil => rfl
  | cons c cs ih => simp only [tails, List.map_cons, afterAdmitted, ih, headD_map_tails]

theorem answersBefore_tails (t : GlobToken) (ts : List GlobToken) (cs : List Char) :
    answersBefore cs t ((tails cs).map (matchAll ts)) = (tails cs).map (matchAll (t :: ts)) := by
  cases t with
  | anyRun => exact orLater_tails _ _
  | anyComponents =>
    simp only [answersBefore, orAfterSlash_tails, zipWith_or_tails]
    exact List.map_congr_left fun cs _ => by simp [matchAll]
  | _ =>
    simp only [answersBefore, afterAdmitted_tails]
    exact List.map_congr_left fun cs _ => by cases cs <;> simp [matchAll]

theorem answers_eq (ts : List GlobToken) (cs : List Char) :
    answers ts cs = (tails cs).map (matchAll ts) := by
  induction ts with
  | nil => exact List.map_congr_left fun cs _ => by simp [matchAll]
  | cons t ts ih =>
    rw [← answersBefore_tails, ← ih]
    rfl

end GlobToken

structure Glob where
  text : String
  tokens : List GlobToken
  deriving DecidableEq, Repr

namespace Glob

/-- Reads a glob; `none` when it is not well formed. -/
def ofText? (text : String) : Option Glob :=
  (GlobToken.parse none text.toList).map (⟨text, ·⟩)

def accepts (g : Glob) (s : String) : Bool :=
  (GlobToken.answers g.tokens s.toList).headD false

theorem accepts_eq (g : Glob) (s : String) :
    g.accepts s = GlobToken.matchAll g.tokens s.toList := by
  rw [accepts, GlobToken.answers_eq, GlobToken.headD_map_tails]

end Glob

end SourceBlocks
