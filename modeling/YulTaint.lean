import YulTaint.Analysis
import YulTaint.Bits
import YulTaint.Builtin.Effect
import YulTaint.Builtin.Table
import YulTaint.CallGraph.Component
import YulTaint.CallGraph.Embedding
import YulTaint.Decimal.Numeral
import YulTaint.Decimal.Shortest
import YulTaint.Fault
import YulTaint.Flow.Collect
import YulTaint.Flow.Constant
import YulTaint.Flow.Definition
import YulTaint.Flow.Finish
import YulTaint.Flow.Walk
import YulTaint.Graph.Basic
import YulTaint.Graph.Summary
import YulTaint.Memory
import YulTaint.Program.Literal
import YulTaint.Program.Loc
import YulTaint.Program.Node
import YulTaint.Program.Reader
import YulTaint.Program.SourceFile
import YulTaint.Proofs.Analysis.Endings
import YulTaint.Proofs.Analysis.Extension
import YulTaint.Proofs.Analysis.Monotone
import YulTaint.Proofs.Analysis.Renaming
import YulTaint.Proofs.Analysis.Stages
import YulTaint.Proofs.CallGraph.Component
import YulTaint.Proofs.CallGraph.Confluence
import YulTaint.Proofs.CallGraph.Embed
import YulTaint.Proofs.CallGraph.Frame
import YulTaint.Proofs.CallGraph.Inlining
import YulTaint.Proofs.CallGraph.Nameless
import YulTaint.Proofs.CallGraph.Naming
import YulTaint.Proofs.CallGraph.Outcome
import YulTaint.Proofs.CallGraph.Partners
import YulTaint.Proofs.CallGraph.Places
import YulTaint.Proofs.CallGraph.Recursion
import YulTaint.Proofs.CallGraph.Representation
import YulTaint.Proofs.CallGraph.Resolution
import YulTaint.Proofs.CallGraph.Search
import YulTaint.Proofs.Execution.Callees
import YulTaint.Proofs.Execution.Calls
import YulTaint.Proofs.Execution.Code
import YulTaint.Proofs.Execution.Control
import YulTaint.Proofs.Execution.Defined
import YulTaint.Proofs.Execution.Hoisting
import YulTaint.Proofs.Execution.Laid
import YulTaint.Proofs.Execution.Layout
import YulTaint.Proofs.Execution.Monitor
import YulTaint.Proofs.Execution.Scoping
import YulTaint.Proofs.Execution.Shadowing
import YulTaint.Proofs.Execution.Simulation
import YulTaint.Proofs.Execution.Soundness
import YulTaint.Proofs.Execution.Tracking
import YulTaint.Proofs.Flow.Acceptance
import YulTaint.Proofs.Flow.Alongside
import YulTaint.Proofs.Flow.Applicable
import YulTaint.Proofs.Flow.Applied
import YulTaint.Proofs.Flow.Confined
import YulTaint.Proofs.Flow.Extended
import YulTaint.Proofs.Flow.Finished
import YulTaint.Proofs.Flow.Fresh
import YulTaint.Proofs.Flow.Grounded
import YulTaint.Proofs.Flow.Judgement
import YulTaint.Proofs.Flow.LeastSolution
import YulTaint.Proofs.Flow.Mirror
import YulTaint.Proofs.Flow.Move
import YulTaint.Proofs.Flow.Nameless
import YulTaint.Proofs.Flow.Naming
import YulTaint.Proofs.Flow.Protected
import YulTaint.Proofs.Flow.Renamed
import YulTaint.Proofs.Flow.Run
import YulTaint.Proofs.Flow.Solution
import YulTaint.Proofs.Flow.Statement
import YulTaint.Proofs.Flow.Stores
import YulTaint.Proofs.Flow.Touch
import YulTaint.Proofs.Flow.Walked
import YulTaint.Proofs.Graph.Coherent
import YulTaint.Proofs.Graph.Growth
import YulTaint.Proofs.Graph.Labels
import YulTaint.Proofs.Graph.Operations
import YulTaint.Proofs.Graph.WellFormed
import YulTaint.Proofs.Lists
import YulTaint.Proofs.Memory.Aliasing
import YulTaint.Proofs.Memory.Table
import YulTaint.Proofs.Memory.Words
import YulTaint.Proofs.Order
import YulTaint.Proofs.Program.Address
import YulTaint.Proofs.Program.Atoms
import YulTaint.Proofs.Program.Leaves
import YulTaint.Proofs.Program.Lexical
import YulTaint.Proofs.Program.Printing
import YulTaint.Proofs.Program.Rejection
import YulTaint.Proofs.Program.Renaming
import YulTaint.Proofs.Program.Turns
import YulTaint.Proofs.Sexp.Atom
import YulTaint.Proofs.Sexp.Parses
import YulTaint.Proofs.Sexp.Places
import YulTaint.Proofs.Sexp.Spelling
import YulTaint.Proofs.Taint.Addresses
import YulTaint.Proofs.Taint.Closure
import YulTaint.Proofs.Taint.Named
import YulTaint.Proofs.Taint.Paths
import YulTaint.Proofs.Taint.Sources
import YulTaint.Proofs.Taint.Violations
import YulTaint.Proofs.Word.Machine
import YulTaint.Release
import YulTaint.Report
import YulTaint.Sexp.Basic
import YulTaint.Sexp.Position
import YulTaint.Sexp.Printer
import YulTaint.Sexp.Reader
import YulTaint.Sexp.Token
import YulTaint.Taint.Config
import YulTaint.Taint.Spread
import YulTaint.Text.Digit
import YulTaint.Text.Hex
import YulTaint.Text.Json
import YulTaint.Text.Order
import YulTaint.Text.Printable
import YulTaint.Text.Quoted
import YulTaint.Violation
import YulTaint.Word
