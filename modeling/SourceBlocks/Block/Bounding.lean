import SourceBlocks.Block.Basic
import SourceBlocks.Numeric.Tally
import SourceBlocks.Settings.Basic

/-! # Bounding the blocks of a file

One pass drops repeated blocks, then blocks over the limit of their type, and ends at the limit of
the file. -/

namespace SourceBlocks

def Settings.typeLimit (s : Settings) (type : String) : Nat :=
  if type = "function" || type = "method" || type = "constructor" then s.maxFunctions
  else if type = "impl" then s.maxImpls
  else s.maxClasses

/-- What the pass over the blocks has seen so far. -/
structure BoundingState where
  seen : List BlockKey
  perType : Tally
  kept : Nat

/-- The blocks that the pass keeps from here on. -/
def boundFrom (limit : String → Nat) (maxBlocks : Nat) (st : BoundingState) :
    List Block → List Block
  | [] => []
  | b :: bs =>
    if st.seen.contains b.key then boundFrom limit maxBlocks st bs
    else
      let st := { st with seen := b.key :: st.seen }
      if limit b.type ≤ st.perType.count b.type then boundFrom limit maxBlocks st bs
      else if maxBlocks ≤ st.kept + 1 then [b]
      else
        b :: boundFrom limit maxBlocks
          { st with perType := st.perType.bump b.type, kept := st.kept + 1 } bs

/-- The blocks of a file within the limits of its types and its language. -/
def boundBlocks (s : Settings) (language : String) (blocks : List Block) : List Block :=
  boundFrom s.typeLimit (s.tuning language).maxBlocks ⟨[], [], 0⟩ blocks

end SourceBlocks
