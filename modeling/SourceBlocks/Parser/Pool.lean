import SourceBlocks.Failure.Basic
import SourceBlocks.Language.Basic

/-! # Parser pool

One parser per language, made at its first use and handed out to one client at a time. A parser has a
slot; the pool may forget a slot while its parser is out, and the parser then still returns to that
slot. A checkout of a parser that is out ends in a timeout. -/

namespace SourceBlocks

/-- The place of one parser. -/
structure ParserSlot where
  language : String
  /-- The parser is in its place. -/
  filled : Bool
  deriving DecidableEq, Repr

/-- The right to use the parser of a slot. -/
structure ParserLease where
  language : String
  slot : Nat
  deriving DecidableEq, Repr

/-- All slots ever made, in order, and the slot of each language that the pool knows. -/
structure ParserPool where
  slots : List ParserSlot
  pooled : List (String × Nat)
  acquisitions : Nat
  reuses : Nat
  timeouts : Nat
  failures : Nat
  deriving DecidableEq, Repr

structure PoolUsage where
  parsers : Nat
  languages : List String
  checkedOut : Nat
  acquisitions : Nat
  reuses : Nat
  timeouts : Nat
  failures : Nat
  deriving DecidableEq, Repr

structure PoolCleanup where
  parsers : Nat
  languages : List String
  deriving DecidableEq, Repr

/-- The answer to a checkout: a lease, or the failure to report. -/
structure CheckoutAnswer where
  lease : Except Failure ParserLease
  pool : ParserPool

namespace ParserPool

def empty : ParserPool := ⟨[], [], 0, 0, 0, 0⟩

def isFilled (p : ParserPool) (slot : Nat) : Bool :=
  match p.slots[slot]? with
  | some s => s.filled
  | none => false

def setFilled (p : ParserPool) (slot : Nat) (filled : Bool) : ParserPool :=
  { p with slots := p.slots.modify slot fun s => { s with filled } }

/-- Hands out the parser of a slot, if it is there. -/
def takeFrom (p : ParserPool) (language : String) (slot : Nat) : CheckoutAnswer :=
  if p.isFilled slot then { lease := .ok { language, slot }, pool := p.setFilled slot false }
  else
    { lease := .error (.parserUnavailable language "timed out waiting for parser")
      pool := { p with timeouts := p.timeouts + 1 } }

/-- Makes a parser for a language and puts it into a new slot of the pool. -/
def addSlot (p : ParserPool) (language : String) : ParserPool :=
  { p with
    slots := p.slots ++ [{ language, filled := true }]
    pooled := (language, p.slots.length) :: p.pooled }

/-- Checks out the parser of a language, making it first where the pool knows none. -/
def acquire (p : ParserPool) (language : String) : CheckoutAnswer :=
  let p : ParserPool := { p with acquisitions := p.acquisitions + 1 }
  match p.pooled.lookup language with
  | some slot => takeFrom { p with reuses := p.reuses + 1 } language slot
  | none =>
    if Language.hasGrammar language then (p.addSlot language).takeFrom language p.slots.length
    else
      { lease := .error (.unsupportedLanguage language)
        pool := { p with failures := p.failures + 1 } }

def release (p : ParserPool) (lease : ParserLease) : ParserPool := p.setFilled lease.slot true

/-- Forgets the slot of a language and says whether there was one. -/
def evict (p : ParserPool) (language : String) : Bool × ParserPool :=
  ((p.pooled.lookup language).isSome,
    { p with pooled := p.pooled.filter (·.1 != language) })

def languages (p : ParserPool) : List String :=
  (p.pooled.map (·.1)).mergeSort (fun a b => decide (a ≤ b))

def cleanup (p : ParserPool) : PoolCleanup × ParserPool :=
  (⟨p.pooled.length, p.languages⟩, { p with pooled := [] })

def usage (p : ParserPool) : PoolUsage where
  parsers := p.pooled.length
  languages := p.languages
  checkedOut := p.pooled.countP fun entry => !p.isFilled entry.2
  acquisitions := p.acquisitions
  reuses := p.reuses
  timeouts := p.timeouts
  failures := p.failures

end ParserPool

end SourceBlocks
