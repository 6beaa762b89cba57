import ScriptGraph.Event
import ScriptGraph.Lowering.Error
import ScriptGraph.Lowering.Scope
import ScriptGraph.Tree.Basic

/-!
# Building a graph

A builder is a graph in the making, with the scope, the next id and the reports so far. A `Lowering`
works on a builder and either yields a result or an error; what it did before an error stays done,
and ids that were given stay used.

The steps here add to a graph and never change what is there: parts go to the ends of their lists,
and ids are given in increasing order.
-/

namespace ScriptGraph

/-- A graph in the making. -/
structure Builder where
  /-- the graph so far -/
  graph : Graph
  /-- what the names stand for -/
  scope : Scope
  /-- the next id to be given -/
  next : Ref
  /-- the reports so far -/
  events : List Event

/-- The builder that has done nothing, with the first id to be given. -/
def Builder.start (first : Ref) : Builder :=
  ⟨Graph.empty, Dictionary.empty, first, []⟩

/-- A step of building. -/
abbrev Lowering := EStateM LoweringError Builder

namespace Lowering

/-! ## Parts -/

/-- Gives an id. The counter does not end at 32 bits; see `Program.generate`. -/
def freshRef : Lowering Ref := do
  let b ← get
  set { b with next := b.next + 1 }
  return b.next

/-- Reports an event. -/
def report (event : Event) : Lowering Unit :=
  modify fun b => { b with events := b.events ++ [event] }

/-- Changes the graph. -/
def onGraph (f : Graph → Graph) : Lowering Unit :=
  modify fun b => { b with graph := f b.graph }

/-- What a name stands for. -/
def binding? (name : String) : Lowering (Option Binding) := do
  return (← get).scope.get? name

/-- Makes a name stand for something. -/
def bindName (name : String) (binding : Binding) : Lowering Unit :=
  modify fun b => { b with scope := b.scope.insert name binding }

/-- Adds a node. -/
def addNode (node : Node) : Lowering Unit := do
  report (.nodeMade node.ref node.opcode)
  onGraph fun g => { g with nodes := g.nodes ++ [node] }

/-- Adds a literal. -/
def addLiteral (literal : Literal) : Lowering Unit :=
  onGraph fun g => { g with literals := g.literals ++ [literal] }

/-- Adds a connection. -/
def addConnection (connection : Connection) : Lowering Unit :=
  onGraph fun g => { g with connections := g.connections ++ [connection] }

/-- Carries a value to an input. -/
def connect (wire : Wire) (target : Ref) (pin : Nat) : Lowering Unit :=
  addConnection (.data wire.ref wire.pin target pin)

/-- Makes one node run after another. -/
def chain (source target : Ref) : Lowering Unit :=
  addConnection (.execution source target)

/-! ## Nodes -/

/-- The place of a node, by whether it reads a public value. -/
def placeFor (readsPublic : Bool) : Place :=
  if readsPublic then Place.publicConsumer else Place.origin

/-- Adds a node with one input; its result counts as a truth value, whatever the operation. -/
def unary (opcode : Opcode) (inner : Wire) : Lowering Wire := do
  let ref ← freshRef
  addNode { opcode := opcode, ref := ref, place := placeFor inner.isPublic }
  connect inner ref 0
  return .ofRef .bool ref

/-- Is a binary operator between these types one on vectors? -/
def isVectorOp (left right : ValueType) : Bool :=
  left == .vector3 || right == .vector3

/-- The type of the result of a binary operator. -/
def binaryType (left right : ValueType) : ValueType :=
  if isVectorOp left right then .vector3
  else if left == .bool || right == .bool then .bool
  else .float

/-- The type that is named when there is no operator for these types. -/
def refusedType (left right : ValueType) : ValueType :=
  if isVectorOp left right then .vector3 else left

/-- Adds the node of a binary operator. With a vector on either side it is the variant for
vectors. -/
def binary (builtins : Builtins) (op : BinaryOp) (left right : Wire) : Lowering Wire := do
  match builtins.operator? op.symbol (isVectorOp left.type right.type) with
  | none => throw (.unknownOperator op.symbol (refusedType left.type right.type))
  | some opcode =>
    let ref ← freshRef
    addNode { opcode := opcode, ref := ref, place := placeFor (left.isPublic || right.isPublic) }
    connect left ref 0
    connect right ref 1
    return .ofRef (binaryType left.type right.type) ref

/-- Adds a node that chooses between a new value and the previous one. -/
def select (condition new previous : Wire) : Lowering Wire := do
  let ref ← freshRef
  addNode { opcode := Opcode.select, ref := ref, place := placeFor new.isPublic }
  connect condition ref 0
  connect new ref 1
  connect previous ref 2
  return .ofRef new.type ref

/-- Adds a node for the conjunction of an outer condition and an inner one; without an outer
condition the inner one stands alone. -/
def conjunction (outer : Option Wire) (inner : Wire) : Lowering Wire := do
  match outer with
  | none => return inner
  | some outer =>
    let ref ← freshRef
    addNode { opcode := Opcode.and, ref := ref, place := Place.origin }
    connect outer ref 0
    connect inner ref 1
    return .ofRef .bool ref

/-- The value of a name now. A global variable is read by a new node each time. -/
def currentValue : Binding → Lowering Wire
  | .wire wire => return wire
  | .parameter type pin => return .atPin type Ref.endpoint pin
  | .globalVar type ref => do
    let read ← freshRef
    addNode { opcode := Opcode.readGlobal, ref := read, place := Place.origin, linked := ref }
    return .ofRef type read

end Lowering

end ScriptGraph
