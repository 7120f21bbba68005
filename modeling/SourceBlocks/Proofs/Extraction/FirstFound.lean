import Mathlib.Algebra.Ring.Nat
import SourceBlocks.Proofs.Extraction.Stateless

/-! # The first strategy that finds blocks

Strategies are tried in order until one finds blocks, and its blocks alone are returned, bounded. What
the strategies before it had is counted together with what it had itself; those after it are not
tried. Bounding comes last, so it has no part in the choice. -/

namespace SourceBlocks

/-- Findings of the first of the strategies that has blocks, or of none if all are without. They count
the captures of each strategy up to that one. -/
inductive FirstFound (found : Strategy → Attempt) (bound : List Block → List Block)
    (strategies : List Strategy) : Findings → Prop
  | chosen {tried rest : List Strategy} {strategy : Strategy}
      (order : strategies = tried ++ strategy :: rest)
      (passed : ∀ t ∈ tried, (found t).blocks = [])
      (finds : (found strategy).blocks ≠ []) :
      FirstFound found bound strategies
        { strategy := some strategy
          blocks := bound (found strategy).blocks
          captures := ((tried ++ [strategy]).map fun t => (found t).captures).sum
          skipped := ((tried ++ [strategy]).map fun t => (found t).skipped).sum }
  | exhausted (passed : ∀ t ∈ strategies, (found t).blocks = []) :
      FirstFound found bound strategies
        { strategy := none
          blocks := []
          captures := (strategies.map fun t => (found t).captures).sum
          skipped := (strategies.map fun t => (found t).skipped).sum }

/-- Findings that come after these captures. -/
def Findings.after (f : Findings) (captures skipped : Nat) : Findings :=
  { f with captures := captures + f.captures, skipped := skipped + f.skipped }

namespace FirstFound

variable {found : Strategy → Attempt} {bound : List Block → List Block} {strategy : Strategy}
  {strategies : List Strategy} {f : Findings}

theorem head (hfinds : (found strategy).blocks ≠ []) :
    FirstFound found bound (strategy :: strategies)
      { strategy := some strategy
        blocks := bound (found strategy).blocks
        captures := (found strategy).captures
        skipped := (found strategy).skipped } := by
  have horder : strategy :: strategies = [] ++ strategy :: strategies := rfl
  exact chosen horder (fun _ h => absurd h List.not_mem_nil) hfinds

end FirstFound

namespace Services

variable {env : Environment}

end Services

end SourceBlocks
