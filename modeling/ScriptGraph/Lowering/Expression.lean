import ScriptGraph.Lowering.Builder

/-!
# Lowering of expressions

An expression becomes a wire, with the nodes and literals that yield its value. Operands and
arguments are lowered from left to right. The node of a call takes its id before its arguments take
theirs, and is added after them.

A name that is bound to nothing may be a constant of the runtime, and a call on a name that is bound
to nothing a function of the runtime; a call on a bound name is a component of its value.
-/

namespace ScriptGraph

/-- The output of a splitter for a component of a vector. -/
def componentPin? (member : String) : Option Nat :=
  if member = "X" then some 0
  else if member = "Y" then some 1
  else if member = "Z" then some 2
  else none

/-- The operation that builds a vector, and its type. -/
def constructor? (type : String) : Option (Opcode × ValueType) :=
  if type = "Vector2" then some (Opcode.buildVector2, .vector2)
  else if type = "Vector3" then some (Opcode.buildVector3, .vector3)
  else none

namespace Lowering

/-- Lowers a component of a bound name. -/
def component (receiver member : Name) (binding : Binding) : Lowering Wire := do
  match componentPin? member.text with
  | none => throw (.invalidComponent member.span receiver.text member.text)
  | some pin =>
    let value ← currentValue binding
    let ref ← freshRef
    addNode {
      opcode := if value.type = .vector3 then Opcode.splitVector3 else Opcode.splitVector2
      ref := ref
      place := placeFor value.isPublic }
    connect value ref 0
    return .atPin .float ref pin

/-- Lowers a name. -/
def namedValue (builtins : Builtins) (name : Name) : Lowering Wire := do
  match ← binding? name.text with
  | some binding => currentValue binding
  | none =>
    match builtins.constant? name.text with
    | none => throw (.unknownIdentifier name.span name.text)
    | some opcode =>
      let ref ← freshRef
      addNode { opcode := opcode, ref := ref, place := Place.origin }
      return .ofRef .builtin ref

mutual

/-- Lowers an expression. -/
def expr (builtins : Builtins) : Expr → Lowering Wire
  | .number value => do
    let ref ← freshRef
    addLiteral (.ofNumber ref value)
    report (.literalMade ref value)
    return .ofRef .float ref
  | .var name => namedValue builtins name
  | .neg inner => do
    let wire ← expr builtins inner
    unary Opcode.negate wire
  | .not inner => do
    let wire ← expr builtins inner
    unary Opcode.not wire
  | .binary op left right => do
    let l ← expr builtins left
    let r ← expr builtins right
    binary builtins op l r
  | .call receiver member args => do
    match ← binding? receiver.text with
    | some binding => component receiver member binding
    | none =>
      match builtins.member? receiver.text member.text with
      | none => throw (.unknownMember receiver.span receiver.text member.text)
      | some opcode =>
        let ref ← freshRef
        let readsPublic ← arguments builtins ref 0 args
        addNode { opcode := opcode, ref := ref, place := placeFor readsPublic }
        return .ofRef (Builtins.resultType member.text) ref
  | .construct type args => do
    match constructor? type.text with
    | none => throw (.unknownType type.span type.text)
    | some (opcode, valueType) =>
      let ref ← freshRef
      let readsPublic ← arguments builtins ref 0 args
      addNode { opcode := opcode, ref := ref, place := placeFor readsPublic }
      return .ofRef valueType ref

/-- Lowers arguments to the inputs of a node from `pin` on, and yields whether one of them is
public. -/
def arguments (builtins : Builtins) (target : Ref) (pin : Nat) : List Expr → Lowering Bool
  | [] => return false
  | arg :: args => do
    let wire ← expr builtins arg
    connect wire target pin
    let others ← arguments builtins target (pin + 1) args
    return wire.isPublic || others

end

end Lowering

end ScriptGraph
