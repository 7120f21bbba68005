import SourceBlocks.Engine.Basic
import SourceBlocks.Window.Lines
import SourceBlocks.Window.Tokens

/-! # Ways of cutting

A file is cut by lines, by tokens, or by structure. Cutting by structure needs an engine and can fall
back to lines for a file without blocks. -/

namespace SourceBlocks

/-- A way of cutting with what it needs. -/
inductive Chunker where
  | lines (c : LineChunker)
  | tokens (c : TokenChunker)
  | structural (fallback : Option LineChunker)
  deriving Repr

namespace Settings

def lineChunker (s : Settings) : LineChunker := ⟨s.lineWindowChars⟩

def tokenChunker (s : Settings) : TokenChunker := .ofWindow s.tokenWindow s.tokenOverlap

/-- The way of cutting that the settings ask for; structure gives way to lines when it is switched
off or there is no engine. -/
def selectChunker (s : Settings) (hasEngine : Bool) : Chunker :=
  match s.chunker with
  | .lines => .lines s.lineChunker
  | .tokens => .tokens s.tokenChunker
  | .structural =>
    if s.structuralEnabled && hasEngine then
      .structural (if s.fallbackToLines then some s.lineChunker else none)
    else .lines s.lineChunker

end Settings

namespace Chunker

def name : Chunker → String
  | lines _ => LineChunker.label
  | tokens _ => TokenChunker.label
  | structural _ => "treesitter"

def chunk (c : Chunker) (st : Session) (env : Environment) (file : SourceFile) :
    List Block × Session :=
  match c with
  | .lines c => (c.chunk file.toSourceText, st)
  | .tokens c => (c.chunk file.toSourceText, st)
  | .structural fallback =>
    let (outcome, st) := st.chunkText env file
    match outcome.succeeded && !outcome.blocks.isEmpty, fallback with
    | false, some byLines => (byLines.chunk file.toSourceText, st)
    | _, _ => (outcome.blocks, st)

end Chunker

end SourceBlocks
