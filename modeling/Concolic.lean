import Concolic.Command.Options
import Concolic.Command.Run
import Concolic.Constraint.Basic
import Concolic.Constraint.Comparator
import Concolic.Expr.Basic
import Concolic.Expr.Build
import Concolic.Expr.Operator
import Concolic.Expr.Visit
import Concolic.Host.Argument
import Concolic.Host.Basic
import Concolic.Ieee.Arithmetic
import Concolic.Ieee.Double
import Concolic.Ieee.Printer
import Concolic.Machine.Act
import Concolic.Machine.Arithmetic
import Concolic.Machine.Call
import Concolic.Machine.Descriptor
import Concolic.Machine.Failure
import Concolic.Machine.Frame
import Concolic.Machine.Heap
import Concolic.Machine.Instruction
import Concolic.Machine.Memory
import Concolic.Machine.Mnemonic
import Concolic.Machine.PathCondition
import Concolic.Machine.Stack
import Concolic.Machine.State
import Concolic.Machine.Transfer
import Concolic.Machine.Value
import Concolic.Main
import Concolic.Numeral.Integer
import Concolic.Numeral.Real
import Concolic.Proofs.AcceptedDescriptors
import Concolic.Proofs.ArgumentBounds
import Concolic.Proofs.ArgumentPassing
import Concolic.Proofs.ArrayRoundTrip
import Concolic.Proofs.ArrayTypes
import Concolic.Proofs.Bounds
import Concolic.Proofs.Branches
import Concolic.Proofs.CallDiscipline
import Concolic.Proofs.Canonical
import Concolic.Proofs.Contents
import Concolic.Proofs.Declarations
import Concolic.Proofs.DoubleOrder
import Concolic.Proofs.Effects
import Concolic.Proofs.Endless
import Concolic.Proofs.Faults
import Concolic.Proofs.FixedWidth
import Concolic.Proofs.Folding
import Concolic.Proofs.Growth
import Concolic.Proofs.HeapIdentity
import Concolic.Proofs.Hierarchy
import Concolic.Proofs.HostLoads
import Concolic.Proofs.Immediates
import Concolic.Proofs.Inputs
import Concolic.Proofs.IntRange
import Concolic.Proofs.IntSlots
import Concolic.Proofs.IntegerTexts
import Concolic.Proofs.Issued
import Concolic.Proofs.LastWriter
import Concolic.Proofs.Literals
import Concolic.Proofs.Lockstep
import Concolic.Proofs.LongBranches
import Concolic.Proofs.Moves
import Concolic.Proofs.Nodes
import Concolic.Proofs.Normal
import Concolic.Proofs.Observing
import Concolic.Proofs.Outcomes
import Concolic.Proofs.PathLog
import Concolic.Proofs.PathTruth
import Concolic.Proofs.Plain
import Concolic.Proofs.Preparation
import Concolic.Proofs.Provenance
import Concolic.Proofs.ReadOverWrite
import Concolic.Proofs.RealFolding
import Concolic.Proofs.Refusals
import Concolic.Proofs.RefusedStores
import Concolic.Proofs.RejectedLines
import Concolic.Proofs.Rendering
import Concolic.Proofs.Rounding
import Concolic.Proofs.Shortest
import Concolic.Proofs.SolverLanguage
import Concolic.Proofs.SolverText
import Concolic.Proofs.Stated
import Concolic.Proofs.Steady
import Concolic.Proofs.Stores
import Concolic.Proofs.StringLiterals
import Concolic.Proofs.Thresholds
import Concolic.Proofs.TopFrame
import Concolic.Proofs.WordShuffles
import Concolic.Proofs.Words
import Concolic.Replay.Basic
import Concolic.Replay.Reading
import Concolic.Replay.Run
import Concolic.Smt.Script
import Concolic.Smt.Term
import Concolic.Text.Hash
import Concolic.Text.Line
import Concolic.Text.Printable
import Concolic.Text.Quoted
import Concolic.Text.Utf8
import Concolic.Trace.Basic
import Concolic.Trace.Decode
import Concolic.Yaml.Document
import Concolic.Yaml.Mapping
import Concolic.Yaml.Meaning
import Concolic.Yaml.Place
import Concolic.Yaml.Scalar
import Concolic.Yaml.Timestamp
import Concolic.Yaml.Token
