import Spillway.Allocator.Assign
import Spillway.Allocator.Machine
import Spillway.BitSet.Bank
import Spillway.BitSet.Basic
import Spillway.BitSet.Lemmas
import Spillway.Code.Complete
import Spillway.Code.Fault
import Spillway.Code.Func
import Spillway.Code.Instr
import Spillway.Code.Operand
import Spillway.Code.Printer
import Spillway.Code.WellFormed
import Spillway.Coloring
import Spillway.CommandLine
import Spillway.Compile
import Spillway.Convention
import Spillway.Error
import Spillway.Files.Directory
import Spillway.Files.Fault
import Spillway.Files.Path
import Spillway.Files.Programs
import Spillway.Frame.Spill
import Spillway.Frame.StackArg
import Spillway.Interference.Basic
import Spillway.Interference.Graph
import Spillway.Liveness.Basic
import Spillway.Liveness.Effect
import Spillway.Liveness.Flow
import Spillway.Liveness.Nodes
import Spillway.Main
import Spillway.Ordered
import Spillway.Proofs.Allocator.Assign
import Spillway.Proofs.Allocator.Behaviour
import Spillway.Proofs.Allocator.Invariant
import Spillway.Proofs.Allocator.Outcome
import Spillway.Proofs.Allocator.Output
import Spillway.Proofs.Allocator.Spills
import Spillway.Proofs.Allocator.Steps
import Spillway.Proofs.Code.Vars
import Spillway.Proofs.Code.WellFormed
import Spillway.Proofs.Coloring
import Spillway.Proofs.Compile
import Spillway.Proofs.Convention
import Spillway.Proofs.Frame.Spilled
import Spillway.Proofs.Frame.Windows
import Spillway.Proofs.Interference.Edges
import Spillway.Proofs.Liveness.Fixpoint
import Spillway.Proofs.Liveness.Ids
import Spillway.Proofs.Liveness.Paths
import Spillway.Proofs.Results
import Spillway.Proofs.Semantics.Basic
import Spillway.Proofs.Semantics.Renaming
import Spillway.Proofs.Semantics.Rewriting
import Spillway.Proofs.Semantics.Simulation
import Spillway.Proofs.Semantics.Spilling
import Spillway.Proofs.Source.Lexemes
import Spillway.Proofs.Source.Offsets
import Spillway.Proofs.Source.Operands
import Spillway.Proofs.Source.Reading
import Spillway.Proofs.Source.RoundTrip
import Spillway.Proofs.Source.Trees
import Spillway.Source.Bytes
import Spillway.Source.Fault
import Spillway.Source.Reader
import Spillway.Source.Token
import Spillway.Source.Tree
import Spillway.Text.Decimal
import Spillway.Text.Printable
import Spillway.Text.Quoted
import Spillway.Wire
import Spillway.Proofs.Allocator.CalleeSaved
import Spillway.Proofs.Allocator.ShiftCount
import Spillway.Proofs.Allocator.Rounds
import Spillway.Proofs.Source.Atoms
import Spillway.Proofs.Source.ReadBack
import Spillway.Proofs.Source.Identifiers
import Spillway.Proofs.Liveness.Exact
import Spillway.Proofs.Allocator.VariableNames
import Spillway.Proofs.Semantics.Flat
import Spillway.Proofs.Allocator.LockStep
import Spillway.Proofs.Interference.Rules
import Spillway.Proofs.Coloring.Graphs
import Spillway.Proofs.Semantics.SpilledRuns
import Spillway.Proofs.Allocator.AssignedLiveness
import Spillway.Proofs.Frame.SpilledLiveness
import Spillway.Proofs.Source.Indexed
import Spillway.Proofs.Source.Safety
import Spillway.Proofs.Source.Grammar
import Spillway.Proofs.Code.Soundness
import Spillway.Proofs.Frame.Temporaries
import Spillway.Proofs.Frame.StackArguments
import Spillway.Proofs.BitSet.Scan
import Spillway.Proofs.BitSet.Refinement
import Spillway.Proofs.Frame.Effects
import Spillway.Proofs.Interference.Degrees
