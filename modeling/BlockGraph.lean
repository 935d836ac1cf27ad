import BlockGraph.Builder.Basic
import BlockGraph.Builder.Child
import BlockGraph.Builder.Edge
import BlockGraph.Builder.Layout
import BlockGraph.CommandLine.Options
import BlockGraph.CommandLine.Run
import BlockGraph.CommandLine.Similarity
import BlockGraph.Decimal.Binary
import BlockGraph.Decimal.Shortest
import BlockGraph.Decimal.Style
import BlockGraph.Event
import BlockGraph.Fault
import BlockGraph.Graph.Basic
import BlockGraph.Graph.Block
import BlockGraph.Graph.Copies
import BlockGraph.Graph.Id
import BlockGraph.Graph.Listing
import BlockGraph.Graph.Locals
import BlockGraph.Graph.Operation
import BlockGraph.Graph.Terminator
import BlockGraph.Graph.Type
import BlockGraph.Graph.Violation
import BlockGraph.Logged
import BlockGraph.Lowering.Basic
import BlockGraph.Lowering.Call
import BlockGraph.Lowering.Expr
import BlockGraph.Lowering.Loop
import BlockGraph.Lowering.Place
import BlockGraph.Lowering.Program
import BlockGraph.Lowering.Stmt
import BlockGraph.Main
import BlockGraph.OrderedMap
import BlockGraph.Proofs.Builder.Actions
import BlockGraph.Proofs.Builder.Advances
import BlockGraph.Proofs.Builder.Children
import BlockGraph.Proofs.Builder.Edges
import BlockGraph.Proofs.Builder.Faults
import BlockGraph.Proofs.Builder.Layouts
import BlockGraph.Proofs.Builder.Moves
import BlockGraph.Proofs.Builder.Permutations
import BlockGraph.Proofs.Builder.Slots
import BlockGraph.Proofs.Builder.Steps
import BlockGraph.Proofs.Builder.Zones
import BlockGraph.Proofs.CopyPropagation
import BlockGraph.Proofs.Course.Discipline
import BlockGraph.Proofs.Course.Faults
import BlockGraph.Proofs.Course.Frames
import BlockGraph.Proofs.Course.Losses
import BlockGraph.Proofs.Course.Plans
import BlockGraph.Proofs.Course.Proceeding
import BlockGraph.Proofs.Course.Types
import BlockGraph.Proofs.Execution
import BlockGraph.Proofs.Graph.Condensation
import BlockGraph.Proofs.Graph.Growth
import BlockGraph.Proofs.Graph.LiveRegisters
import BlockGraph.Proofs.Graph.Registers
import BlockGraph.Proofs.Initialization.Chronicle
import BlockGraph.Proofs.Initialization.Expressions
import BlockGraph.Proofs.Initialization.Loops
import BlockGraph.Proofs.Initialization.Paths
import BlockGraph.Proofs.Initialization.Programs
import BlockGraph.Proofs.Initialization.Statements
import BlockGraph.Proofs.InsertionOrder
import BlockGraph.Proofs.Linearity.Actions
import BlockGraph.Proofs.Linearity.Calls
import BlockGraph.Proofs.Linearity.Copies
import BlockGraph.Proofs.Linearity.Expressions
import BlockGraph.Proofs.Linearity.Handover
import BlockGraph.Proofs.Linearity.Programs
import BlockGraph.Proofs.Linearity.Statements
import BlockGraph.Proofs.Linearity.Tidy
import BlockGraph.Proofs.Lowering.Calls
import BlockGraph.Proofs.Lowering.Captures
import BlockGraph.Proofs.Lowering.Closed
import BlockGraph.Proofs.Lowering.Declarations
import BlockGraph.Proofs.Lowering.Expressions
import BlockGraph.Proofs.Lowering.Faults
import BlockGraph.Proofs.Lowering.Flow
import BlockGraph.Proofs.Lowering.Forms
import BlockGraph.Proofs.Lowering.Loops
import BlockGraph.Proofs.Lowering.Nesting
import BlockGraph.Proofs.Lowering.Partition
import BlockGraph.Proofs.Lowering.Shifts
import BlockGraph.Proofs.Lowering.Statements
import BlockGraph.Proofs.Lowering.Traversal
import BlockGraph.Proofs.Lowering.Types
import BlockGraph.Proofs.Lowering.Zones
import BlockGraph.Proofs.OrderedMap
import BlockGraph.Proofs.Runs
import BlockGraph.Proofs.Safety.Actions
import BlockGraph.Proofs.Safety.Blocks
import BlockGraph.Proofs.Safety.Calls
import BlockGraph.Proofs.Safety.Expressions
import BlockGraph.Proofs.Safety.Loops
import BlockGraph.Proofs.Safety.Places
import BlockGraph.Proofs.Safety.Programs
import BlockGraph.Proofs.Safety.Shapes
import BlockGraph.Proofs.Safety.Statements
import BlockGraph.Proofs.Sessions.Asks
import BlockGraph.Proofs.Sessions.History
import BlockGraph.Proofs.Sessions.Joins
import BlockGraph.Proofs.Sessions.Lowering
import BlockGraph.Proofs.Sessions.Registry
import BlockGraph.Proofs.Sessions.Requests
import BlockGraph.Proofs.Simulation.Blocks
import BlockGraph.Proofs.Simulation.Calls
import BlockGraph.Proofs.Simulation.Expressions
import BlockGraph.Proofs.Simulation.Functions
import BlockGraph.Proofs.Simulation.Loops
import BlockGraph.Proofs.Simulation.Machine
import BlockGraph.Proofs.Simulation.Places
import BlockGraph.Proofs.Simulation.Points
import BlockGraph.Proofs.Simulation.Programs
import BlockGraph.Proofs.Simulation.Scopes
import BlockGraph.Proofs.Source.Analysis
import BlockGraph.Proofs.Source.Contexts
import BlockGraph.Proofs.Source.Evaluation
import BlockGraph.Proofs.Source.Flow
import BlockGraph.Proofs.Source.Scopes
import BlockGraph.Proofs.Text.Types
import BlockGraph.Proofs.Totality.Actions
import BlockGraph.Proofs.Totality.Blocks
import BlockGraph.Proofs.Totality.Calls
import BlockGraph.Proofs.Totality.Declarations
import BlockGraph.Proofs.Totality.Expressions
import BlockGraph.Proofs.Totality.Heap
import BlockGraph.Proofs.Totality.Live
import BlockGraph.Proofs.Totality.Loops
import BlockGraph.Proofs.Totality.Places
import BlockGraph.Proofs.Totality.Programs
import BlockGraph.Proofs.Totality.Scopes
import BlockGraph.Proofs.Totality.Statements
import BlockGraph.Proofs.Verification.Copies
import BlockGraph.Proofs.Verification.Programs
import BlockGraph.Proofs.Verification.Reachability
import BlockGraph.Proofs.Verification.Rules
import BlockGraph.Proofs.Verification.Sessions
import BlockGraph.Sample
import BlockGraph.Source.Expr
import BlockGraph.Source.Literal
import BlockGraph.Source.Operator
import BlockGraph.Source.Program
import BlockGraph.Source.Type
import BlockGraph.Text.Basic
import BlockGraph.Text.Extending
import BlockGraph.Text.Quoted
import BlockGraph.Text.Unprintable
