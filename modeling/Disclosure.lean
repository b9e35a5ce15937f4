import Disclosure.Codec.Report
import Disclosure.Codec.Stmt
import Disclosure.Proofs.Json.Grammar
import Disclosure.Proofs.Json.Parser
import Disclosure.Proofs.Json.Fields
import Disclosure.Proofs.Json.Reader
import Disclosure.Proofs.Codec.Program
import Disclosure.Proofs.Codec.Report
import Disclosure.Proofs.Codec.Policy
import Disclosure.Proofs.Codec.Expr
import Disclosure.Proofs.Codec.Stmt
import Disclosure.Proofs.Location
import Disclosure.Proofs.Memory
import Disclosure.Proofs.Memory.Join
import Disclosure.Proofs.Memory.Batch
import Disclosure.Proofs.Dataflow.Fixpoint
import Disclosure.Proofs.Dataflow.Least
import Disclosure.Proofs.Effect
import Disclosure.Proofs.Analysis.Replay
import Disclosure.Proofs.Analysis.Paths
import Disclosure.Proofs.Lowering.Steps
import Disclosure.Proofs.Lowering.Runs
import Disclosure.Proofs.Lowering.Expressions
import Disclosure.Proofs.Lowering.Statements
import Disclosure.Proofs.Lowering.Terminators
import Disclosure.Proofs.Analysis.Equations
import Disclosure.Proofs.Graph.Precedence
import Disclosure.Proofs.Graph.Postorder
import Disclosure.Proofs.Dataflow.FirstPass
import Disclosure.Proofs.Dataflow.Budget
import Disclosure.Proofs.Lowering.Composition
import Disclosure.Proofs.Graph.Growth
import Disclosure.Proofs.Lowering.Regions
import Disclosure.Proofs.Lowering.Bridges
import Disclosure.Proofs.Lowering.Operands
import Disclosure.Proofs.Lowering.Order
import Disclosure.Proofs.Dataflow.Ascent
import Disclosure.Proofs.Lowering.Listing
import Disclosure.Proofs.Analysis.Convergence
import Disclosure.Proofs.Analysis.Invariant
import Disclosure.Proofs.Analysis.Provenance
import Disclosure.Proofs.Analysis.Frame
import Disclosure.Proofs.Lowering.Evaluation
import Disclosure.Proofs.Lowering.Counting
import Disclosure.Proofs.Lowering.Spread
import Disclosure.Proofs.Lowering.Liveness
import Disclosure.Proofs.Analysis.Liveness
import Disclosure.Proofs.Dataflow.Recurrence
import Disclosure.Proofs.Dataflow.Height
import Disclosure.Proofs.Dataflow.Truncation
import Disclosure.Proofs.Dataflow.Invariant
import Disclosure.Proofs.Graph.WellFormed
import Disclosure.Proofs.Analysis.Oscillation
import Disclosure.Proofs.Lowering.Confinement
import Disclosure.Proofs.Lowering.WellFormed
import Disclosure.Proofs.Graph.Padding
import Disclosure.Proofs.Analysis.DeadCode
import Disclosure.Proofs.Analysis.Findings
import Disclosure.Proofs.Analysis.Consistency
import Disclosure.Proofs.Analysis.Containers
import Disclosure.Proofs.Analysis.ShortCircuit
import Disclosure.Proofs.Analysis.Monotone
import Disclosure.Proofs.Program.Inheritance
import Disclosure.Proofs.Program.Parts
import Disclosure.Proofs.Lowering.Calls
import Disclosure.Proofs.Lowering.Locations
import Disclosure.Proofs.Lowering.Parentheses
import Disclosure.Proofs.Analysis.Violations
import Disclosure.Proofs.Analysis.SymbolTable
