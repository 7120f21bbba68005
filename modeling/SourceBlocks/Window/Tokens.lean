import SourceBlocks.Window.Basic
import SourceBlocks.Window.TokenEstimate

/-! # Windows by tokens

Windows of whole lines that cost at most a number of tokens; each starts with the last lines of the
one before, up to a number of tokens. A line that is too large is a window by itself. -/

namespace SourceBlocks

/-- Cuts a text into windows of at most `size` tokens that share up to `overlap` tokens. -/
structure TokenChunker where
  size : Nat
  overlap : Nat
  overlap_lt : overlap < size
  deriving DecidableEq, Repr

namespace TokenChunker

/-- A window takes at least one token, and less is shared than a window takes. -/
def ofWindow (size overlap : Nat) : TokenChunker where
  size := max size 1
  overlap := min overlap (max size 1 - 1)
  overlap_lt := by omega

/-- The last line of a window that now ends at `last` and costs `total`. -/
def extend (counts : Array Nat) (size last total : Nat) : Nat :=
  if h : last + 1 < counts.size then
    if total + counts[last + 1] ≤ size then
      extend counts size (last + 1) (total + counts[last + 1])
    else last
  else last
termination_by counts.size - last

theorem le_extend (counts : Array Nat) (size last total : Nat) :
    last ≤ extend counts size last total := by
  fun_induction extend counts size last total <;> omega

theorem extend_lt (counts : Array Nat) (size last total : Nat) (h : last < counts.size) :
    extend counts size last total < counts.size := by
  fun_induction extend counts size last total <;> simp_all

/-- The first line of the window after one that starts at `start`: from `next` back over lines that
together with `taken` cost at most `overlap`. -/
def stepBack (counts : Array Nat) (overlap start : Nat) : (next taken : Nat) → Nat
  | 0, _ => 0
  | next + 1, taken =>
    if start < next ∧ taken + counts.getD next 0 ≤ overlap then
      stepBack counts overlap start next (taken + counts.getD next 0)
    else next + 1

theorem lt_stepBack (counts : Array Nat) (overlap start next taken : Nat) (h : start < next) :
    start < stepBack counts overlap start next taken := by
  induction next generalizing taken with
  | zero => omega
  | succ next ih =>
    rw [stepBack]
    split
    · exact ih _ (by omega)
    · exact h

/-- The windows from a line on. -/
def windowsFrom (counts : Array Nat) (c : TokenChunker) (start : Nat) : List LineWindow :=
  if h : start < counts.size then
    let last := extend counts c.size start counts[start]
    ⟨start, last⟩ ::
      if last + 1 = counts.size then []
      else windowsFrom counts c (stepBack counts c.overlap start (last + 1) 0)
  else []
termination_by counts.size - start
decreasing_by
  have := le_extend counts c.size start counts[start]
  have := lt_stepBack counts c.overlap start
    (extend counts c.size start counts[start] + 1) 0 (by omega)
  omega

def windows (c : TokenChunker) (counts : List Nat) : List LineWindow :=
  windowsFrom counts.toArray c 0

def label : String := "tokens"

def chunk (c : TokenChunker) (file : SourceText) : List Block :=
  let lines := Text.charLines file.text.toList
  LineWindow.blocks lines label file (c.windows (lines.map TokenEstimate.ofLine))

end TokenChunker

end SourceBlocks
