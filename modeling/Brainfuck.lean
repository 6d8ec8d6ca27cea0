import Brainfuck.Bytes
import Brainfuck.Text.Utf8
import Brainfuck.Text.Style
import Brainfuck.Text.ControlSequence
import Brainfuck.Path
import Brainfuck.Position
import Brainfuck.Source
import Brainfuck.Diagnostic
import Brainfuck.Command
import Brainfuck.Token
import Brainfuck.Matching
import Brainfuck.Op
import Brainfuck.Block.Basic
import Brainfuck.Block.Walk
import Brainfuck.Block.Equality
import Brainfuck.Block.Word
import Brainfuck.Block.Metrics
import Brainfuck.Block.Outline
import Brainfuck.Block.Runs
import Brainfuck.Asm.Listing
import Brainfuck.Asm.Backend
import Brainfuck.Asm.X64
import Brainfuck.Asm.AArch64
import Brainfuck.Asm.Arch
import Brainfuck.Log
import Brainfuck.Options
import Brainfuck.Compile
import Brainfuck.CommandLine
import Brainfuck.Files.Store
import Brainfuck.Files.Tree
import Brainfuck.Run.Host
import Brainfuck.Run.Settings
import Brainfuck.Run.Basic
import Brainfuck.Main
import Brainfuck.Proofs.Process
import Brainfuck.Proofs.Tape
import Brainfuck.Proofs.Execution
import Brainfuck.Proofs.Simplification
import Brainfuck.Proofs.RunFolding
import Brainfuck.Proofs.Layout
import Brainfuck.Proofs.DirectRun
import Brainfuck.Proofs.Reading
import Brainfuck.Proofs.TextLines
import Brainfuck.Proofs.Machine.Text
import Brainfuck.Proofs.Machine.Basic
import Brainfuck.Proofs.Machine.Lowering
import Brainfuck.Proofs.Machine.Correctness
import Brainfuck.Proofs.Machine.X64
import Brainfuck.Proofs.Machine.AArch64
import Brainfuck.Proofs.Compilation
import Brainfuck.Proofs.Nesting
import Brainfuck.Proofs.Pairing
import Brainfuck.Proofs.Places
import Brainfuck.Proofs.Outcome
import Brainfuck.Proofs.Flattening
import Brainfuck.Proofs.Cancellation
import Brainfuck.Proofs.CanonicalForm
import Brainfuck.Proofs.Loops
import Brainfuck.Proofs.LoopPairs
import Brainfuck.Proofs.Machine.Labels
import Brainfuck.Proofs.Machine.Decoding
import Brainfuck.Proofs.Stores
import Brainfuck.Proofs.Effects
import Brainfuck.Proofs.Refolding
import Brainfuck.Proofs.UniqueMatching
import Brainfuck.Proofs.Machine.Reach
import Brainfuck.Proofs.VisibleCommands
import Brainfuck.Proofs.LossyText
import Brainfuck.Proofs.Sweeps
import Brainfuck.Proofs.NormalForm
import Brainfuck.Proofs.Outlines
import Brainfuck.Proofs.Carets
import Brainfuck.Proofs.SourceLines
import Brainfuck.Proofs.ArgumentOrder
import Brainfuck.Proofs.Walks
import Brainfuck.Proofs.Measures
import Brainfuck.Proofs.Comparison
