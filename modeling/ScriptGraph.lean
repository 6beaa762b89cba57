import ScriptGraph.Main
import ScriptGraph.Proofs.Lowering.Derivation
import ScriptGraph.Proofs.Lowering.Steps
import ScriptGraph.Proofs.Lowering.Allocation
import ScriptGraph.Proofs.Lowering.Integrity
import ScriptGraph.Proofs.Lowering.Visibility
import ScriptGraph.Proofs.Lowering.ExecutionChain
import ScriptGraph.Proofs.Meaning.Evaluation
import ScriptGraph.Proofs.Lowering.Feeding
import ScriptGraph.Proofs.Lowering.Order
import ScriptGraph.Proofs.Tree.Roles
import ScriptGraph.Proofs.Lowering.Inputs
import ScriptGraph.Proofs.Lowering.Arity
import ScriptGraph.Proofs.Lowering.Results
import ScriptGraph.Proofs.Meaning.Expression
import ScriptGraph.Proofs.Meaning.Predication
import ScriptGraph.Proofs.Meaning.Statement
import ScriptGraph.Proofs.Meaning.Program
import ScriptGraph.Proofs.Meaning.Branches
import ScriptGraph.Proofs.Meaning.Passages
import ScriptGraph.Proofs.Parsing.Grammar
import ScriptGraph.Proofs.Parsing.Reading
import ScriptGraph.Proofs.Parsing.Recognition
import ScriptGraph.Proofs.Parsing.Soundness
import ScriptGraph.Proofs.Parsing.Completeness
import ScriptGraph.Proofs.Parsing.Agreement
import ScriptGraph.Proofs.Parsing.Prefix
import ScriptGraph.Proofs.Parsing.Rendering
import ScriptGraph.Proofs.Parsing.RoundTrip
import ScriptGraph.Proofs.Token.Segmentation
import ScriptGraph.Proofs.Token.Rescanning
import ScriptGraph.Proofs.Tree.Numbers
import ScriptGraph.Proofs.Lowering.Literals
import ScriptGraph.Proofs.Lowering.Renumbering
import ScriptGraph.Proofs.Tree.Types
import ScriptGraph.Proofs.Lowering.Types
import ScriptGraph.Proofs.Lowering.Reads
import ScriptGraph.Proofs.Tree.Parts
import ScriptGraph.Proofs.Parsing.Layout
import ScriptGraph.Proofs.Lowering.Layout
import ScriptGraph.Proofs.Parsing.Places
import ScriptGraph.Proofs.Parsing.Diagnostics
import ScriptGraph.Proofs.Lowering.Faults
import ScriptGraph.Proofs.Lowering.Ports
import ScriptGraph.Proofs.Binary32.Text
import ScriptGraph.Proofs.Json.RoundTrip
import ScriptGraph.Proofs.Graph.Recovery
import ScriptGraph.Proofs.CommandLine.Outcome
import ScriptGraph.Proofs.Token.Alphabet
import ScriptGraph.Proofs.Lowering.Gating
import ScriptGraph.Proofs.Parsing.Spans
import ScriptGraph.Proofs.Lowering.Pins
import ScriptGraph.Proofs.Graph.Repair
import ScriptGraph.Proofs.Lowering.Compound
import ScriptGraph.Proofs.Builtin.Lookup
import ScriptGraph.Proofs.Builtin.Order
import ScriptGraph.Proofs.Lowering.Growth
import ScriptGraph.Proofs.Lowering.Overflow
import ScriptGraph.Proofs.Lowering.Placement
import ScriptGraph.Proofs.Lowering.Respelling
import ScriptGraph.Proofs.CommandLine.Inputs
import ScriptGraph.Proofs.Binary32.Proper
import ScriptGraph.Proofs.Parsing.Readability
import ScriptGraph.Proofs.Token.Pairing
import ScriptGraph.Proofs.Parsing.Progress
import ScriptGraph.Proofs.Lowering.Attempts
