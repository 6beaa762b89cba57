import ScriptGraph.Binary32.Decimal
import ScriptGraph.Builtin.Basic

/-!
# Node graphs

A graph is what the editor shows and the runtime runs: nodes that perform operations, literals,
declared variables and the pins of the method, all known by reference ids, and connections between
them. A data connection carries a value from an output to an input; an execution connection says
what runs next. The method itself takes part in both under the id `endpoint`: its inputs are sources
of data and its outputs targets, and execution enters and leaves there.

All parts are lists in the order in which they were made.
-/

namespace ScriptGraph

/-- The id of a node, a literal or a variable. It is a whole number of 32 bits; where ids are counted
up, they are taken to be large enough, and `Program.generate` says what happens if they are not. -/
abbrev Ref := Int

/-- The method itself: its pins, its entry and its exit. -/
def Ref.endpoint : Ref := -1

/-- The mark of a node that belongs to no variable. -/
def Ref.unlinked : Ref := -1

/-- A place on the editor's canvas. -/
structure Place where
  /-- from left to right -/
  x : Binary32
  /-- from top to bottom -/
  y : Binary32
  deriving DecidableEq, Repr, Inhabited

namespace Place

/-- Where most nodes stand. -/
def origin : Place := ⟨.ofInt 0, .ofInt 0⟩

/-- Where nodes stand that read a public value. -/
def publicConsumer : Place := ⟨.ofInt (-100), .ofInt (-100)⟩

/-- Where public values stand. -/
def publicValue : Place := ⟨.ofInt (-200), .ofInt (-100)⟩

/-- Where nodes stand that write a global variable. -/
def globalWrite : Place := ⟨.ofInt 0, .ofInt 100⟩

/-- Where nodes stand that nothing reads. -/
def orphan : Place := ⟨.ofInt 200, .ofInt (-100)⟩

/-- Where execution enters. -/
def enter : Place := ⟨.ofInt (-500), .ofInt 0⟩

/-- Where execution leaves. -/
def exit : Place := ⟨.ofInt 500, .ofInt 0⟩

end Place

/-- A node. -/
structure Node where
  /-- the operation -/
  opcode : Opcode
  /-- the id -/
  ref : Ref
  /-- the place -/
  place : Place
  /-- the variable that the node reads or writes -/
  linked : Ref := Ref.unlinked
  deriving DecidableEq, Repr, Inhabited

/-- Does a node write a global variable? -/
def Node.isWrite (n : Node) : Bool :=
  n.opcode == Opcode.writeGlobal

/-- A literal. -/
structure Literal where
  /-- the id -/
  ref : Ref
  /-- the name, shown in the editor -/
  name : String
  /-- the place -/
  place : Place
  /-- the value -/
  value : Binary32
  deriving DecidableEq, Repr, Inhabited

/-- The literal of a number in the program. -/
def Literal.ofNumber (ref : Ref) (value : Binary32) : Literal :=
  ⟨ref, "Value", Place.origin, value⟩

/-- A connection. -/
structure Connection where
  /-- does it carry execution, not data? -/
  isExecution : Bool
  /-- the source -/
  source : Ref
  /-- the output of the source -/
  sourcePin : Nat
  /-- the target -/
  target : Ref
  /-- the input of the target -/
  targetPin : Nat
  deriving DecidableEq, Repr, Inhabited

/-- A data connection. -/
def Connection.data (source : Ref) (sourcePin : Nat) (target : Ref) (targetPin : Nat) :
    Connection :=
  ⟨false, source, sourcePin, target, targetPin⟩

/-- An execution connection. -/
def Connection.execution (source target : Ref) : Connection :=
  ⟨true, source, 0, target, 0⟩

/-- A declared variable. -/
structure Variable where
  /-- the name -/
  name : String
  /-- the id -/
  ref : Ref
  /-- the name of the type in the record -/
  type : String
  /-- the text of the value that it starts with -/
  default : String
  deriving DecidableEq, Repr, Inhabited

/-- A pin of the method. -/
structure Pin where
  /-- the name -/
  name : String
  /-- the type of data; the editor's own choice for new pins -/
  dataType : String := "Bool"
  deriving DecidableEq, Repr, Inhabited

/-- A graph. -/
structure Graph where
  /-- the inputs of the method -/
  inputs : List Pin := []
  /-- the outputs of the method -/
  outputs : List Pin := []
  /-- the declared variables -/
  globals : List Variable := []
  /-- the nodes -/
  nodes : List Node := []
  /-- the literals -/
  literals : List Literal := []
  /-- the connections -/
  connections : List Connection := []
  /-- the next id to be given -/
  counter : Ref := 0
  deriving DecidableEq, Repr, Inhabited

namespace Graph

/-- The graph without parts. -/
def empty : Graph := {}

/-- Has a graph neither nodes nor literals nor variables? -/
def isEmpty (g : Graph) : Bool :=
  g.nodes.isEmpty && g.literals.isEmpty && g.globals.isEmpty

/-- The first node with an id. -/
def node? (g : Graph) (ref : Ref) : Option Node :=
  g.nodes.find? fun n => n.ref == ref

/-- The first variable with a name. -/
def variableNamed? (g : Graph) (name : String) : Option Variable :=
  g.globals.find? fun v => v.name == name

/-- The nodes that perform an operation. -/
def nodesWith (g : Graph) (opcode : Opcode) : List Node :=
  g.nodes.filter fun n => n.opcode == opcode

/-- The data connections into a node, in the order of its inputs; those into one input keep their
order. -/
def dataInputs (g : Graph) (ref : Ref) : List Connection :=
  (g.connections.filter fun c => !c.isExecution && c.target == ref).mergeSort
    fun a b => a.targetPin ≤ b.targetPin

/-- What runs after a node. -/
def successors (g : Graph) (ref : Ref) : List Ref :=
  (g.connections.filter fun c => c.isExecution && c.source == ref).map (·.target)

/-- The ids of all nodes, literals and variables. -/
def refs (g : Graph) : List Ref :=
  g.nodes.map (·.ref) ++ g.literals.map (·.ref) ++ g.globals.map (·.ref)

end Graph

end ScriptGraph
