import FlipLoop.Evaluation
import FlipLoop.Main
import FlipLoop.Program.Block
import FlipLoop.Program.Derivation
import FlipLoop.Proofs.Blocks
import FlipLoop.Proofs.Matching
import FlipLoop.Proofs.Walks
import FlipLoop.Proofs.BlockRuns
import FlipLoop.Proofs.Recording
import FlipLoop.Proofs.StructuredRuns
import FlipLoop.Proofs.Delivery
import FlipLoop.Proofs.Composition
import FlipLoop.Proofs.Sinks
import FlipLoop.Proofs.Truncation
import FlipLoop.Proofs.Parallel
import FlipLoop.Proofs.Interference
import FlipLoop.Proofs.Halting
import FlipLoop.Proofs.Bounds
import FlipLoop.Proofs.Expansion
import FlipLoop.Proofs.GlyphText
import FlipLoop.Proofs.ListingText
import FlipLoop.Proofs.RunCommand
import FlipLoop.Proofs.SurveyReport
import FlipLoop.Proofs.FlipPairs
import FlipLoop.Proofs.Partners
import FlipLoop.Proofs.Segments
import FlipLoop.Proofs.SyntaxErrors
import FlipLoop.Proofs.Layout
import FlipLoop.Proofs.Indentation
import FlipLoop.Proofs.RunLog
import FlipLoop.Proofs.SurveyMemories
import FlipLoop.Proofs.Fitting
import FlipLoop.Proofs.Operands
