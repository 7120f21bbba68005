import SourceBlocks.Text.Path
import SourceBlocks.Tree.Node

/-! # Blocks and files

A block is a run of whole lines of a file, ready to be indexed: lines count from one and both ends
belong to the block. -/

namespace SourceBlocks

structure Block where
  type : String
  identifier : String
  path : String
  hash : String
  startLine : Nat
  endLine : Nat
  content : String
  deriving DecidableEq, Repr

/-- What tells blocks of one file apart. -/
structure BlockKey where
  type : String
  identifier : String
  startLine : Nat
  endLine : Nat
  deriving DecidableEq, Repr

def Block.key (b : Block) : BlockKey := ⟨b.type, b.identifier, b.startLine, b.endLine⟩

structure SourceText where
  path : String
  hash : String
  text : String
  deriving DecidableEq, Repr

/-- A file with the tree that the parser of its language makes of its text. A text that is never
parsed may come with any tree. -/
structure SourceFile extends SourceText where
  tree : Node

end SourceBlocks
