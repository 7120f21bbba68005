import SourceBlocks.Engine.Chunker
import SourceBlocks.Proofs.Block.Stages
import SourceBlocks.Proofs.Capture.Conservation
import SourceBlocks.Proofs.Capture.Tokens
import SourceBlocks.Proofs.Engine.Accounts
import SourceBlocks.Proofs.Engine.AnyOrder
import SourceBlocks.Proofs.Engine.Ceiling
import SourceBlocks.Proofs.Engine.Entries
import SourceBlocks.Proofs.Engine.Forgetting
import SourceBlocks.Proofs.Engine.StoredFiles
import SourceBlocks.Proofs.Extraction.Agreement
import SourceBlocks.Proofs.Extraction.Coverage
import SourceBlocks.Proofs.Extraction.FirstFound
import SourceBlocks.Proofs.Extraction.ForeignTrees
import SourceBlocks.Proofs.Extraction.Identifiers
import SourceBlocks.Proofs.Extraction.Placement
import SourceBlocks.Proofs.Failure.Balance
import SourceBlocks.Proofs.Filter.Directories
import SourceBlocks.Proofs.Language.Memory
import SourceBlocks.Proofs.Parser.Orphans
import SourceBlocks.Proofs.Query.LeastRecent
import SourceBlocks.Proofs.Query.Reuse
import SourceBlocks.Proofs.Query.Sweeps
import SourceBlocks.Proofs.Settings.Overrides
import SourceBlocks.Proofs.Window.Pieces
import SourceBlocks.Proofs.Window.Survival
import SourceBlocks.Proofs.Window.TokenAdvance
import SourceBlocks.Proofs.Window.TokenLoops
import SourceBlocks.Settings.File
import SourceBlocks.Tree.Rows
