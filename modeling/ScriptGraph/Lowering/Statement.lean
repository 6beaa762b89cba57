import ScriptGraph.Lowering.Expression

/-!
# Lowering of statements

A graph has no branches. So both bodies of a choice are lowered, each under a *condition*, the
conjunction of the tests around it, negated for an `else`; an assignment under a condition keeps the
previous value where the condition is false. Assignments to global variables become nodes that run
one after another in the order of the text, whatever their conditions; other assignments only change
what the name stands for.

The condition and the last node of the chain of execution are passed along, not stored. The chain
starts at the method's entry, and a return closes it.
-/

namespace ScriptGraph

namespace Lowering

/-- The type of a declaration. -/
def declaredType (type : String) (name : Name) : Lowering ValueType :=
  match ValueType.ofName? type with
  | some t => return t
  | none => throw (.unknownType name.span type)

/-- Lowers a local declaration. A public one becomes a literal; another one stands for its initial
value, whatever its type. -/
def declare (builtins : Builtins) (d : Declaration) : Lowering Unit := do
  if d.isPublic then
    match d.init with
    | some _ => throw (.publicInitializer d.name.span d.name.text)
    | none =>
      let type ← declaredType d.type d.name
      let ref ← freshRef
      addLiteral ⟨ref, d.name.text, Place.publicValue, .ofInt 0⟩
      bindName d.name.text (.wire (.ofPublic type ref))
  else
    match d.init with
    | none => throw (.uninitializedLocal d.name.span d.name.text)
    | some init =>
      let wire ← expr builtins init
      bindName d.name.text (.wire wire)

/-- Lowers the right-hand side of an assignment: the new value, and the value read for it if the old
one takes part. -/
def assignedValue (builtins : Builtins) (binding : Binding) (op : AssignOp) (value : Expr) :
    Lowering (Wire × Option Wire) := do
  match op.binaryOp? with
  | some op =>
    let current ← currentValue binding
    let operand ← expr builtins value
    let new ← binary builtins op current operand
    return (new, some current)
  | none =>
    let new ← expr builtins value
    return (new, none)

/-- The value that an assignment leaves behind: under a condition, a choice between the new value and
the previous one, which is read now unless it has been read. -/
def gated (condition : Option Wire) (binding : Binding) (new : Wire) (previous : Option Wire) :
    Lowering Wire := do
  match condition with
  | none => return new
  | some condition =>
    let previous ← match previous with
      | some previous => pure previous
      | none => currentValue binding
    select condition new previous

/-- Stores a value under a name and yields the end of the chain of execution. -/
def store (name : String) (binding : Binding) (value : Wire) (last : Ref) : Lowering Ref := do
  match binding with
  | .globalVar _ ref =>
    let write ← freshRef
    addNode { opcode := Opcode.writeGlobal, ref := write, place := Place.globalWrite, linked := ref }
    connect value write 0
    chain last write
    return write
  | _ =>
    bindName name (.wire value)
    return last

/-- Lowers an assignment. -/
def assign (builtins : Builtins) (target : Name) (op : AssignOp) (value : Expr)
    (condition : Option Wire) (last : Ref) : Lowering Ref := do
  match ← binding? target.text with
  | none => throw (.unknownIdentifier target.span target.text)
  | some binding =>
    let (new, previous) ← assignedValue builtins binding op value
    let kept ← gated condition binding new previous
    store target.text binding kept last

/-- Adds an output of the method if it has no more than `index` of them. -/
def ensureOutput (index : Nat) : Lowering Unit :=
  onGraph fun g =>
    if g.outputs.length ≤ index then
      { g with outputs := g.outputs ++ [{ name := toString (index + 1) }] }
    else g

/-- Carries values to the outputs of the method from `index` on. -/
def outputs (builtins : Builtins) (index : Nat) : List Expr → Lowering Unit
  | [] => return ()
  | value :: values => do
    let wire ← expr builtins value
    ensureOutput index
    connect wire Ref.endpoint index
    outputs builtins (index + 1) values

mutual

/-- Lowers a statement under a condition, behind the node `last` of the chain of execution, and
yields the new end of the chain. -/
def stmt (builtins : Builtins) (condition : Option Wire) (last : Ref) : Stmt → Lowering Ref
  | .declare d _ => do
    declare builtins d
    return last
  | .assign target op value _ => assign builtins target op value condition last
  | .branch test thenBody elseBody _ => do
    let wire ← expr builtins test
    let whenTrue ← conjunction condition wire
    let last ← body builtins (some whenTrue) last thenBody
    match elseBody with
    | none => return last
    | some elseBody =>
      let negated ← unary Opcode.not wire
      let whenFalse ← conjunction condition negated
      body builtins (some whenFalse) last elseBody
  | .ret values _ => do
    outputs builtins 0 values
    chain last Ref.endpoint
    return Ref.endpoint
  | .call receiver member args _ => do
    discard (expr builtins (.call receiver member args))
    return last

/-- Lowers statements one after another. Nothing may follow a return. -/
def body (builtins : Builtins) (condition : Option Wire) (last : Ref) :
    List Stmt → Lowering Ref
  | [] => return last
  | s :: rest => do
    let last ← stmt builtins condition last s
    match s, rest with
    | .ret _ _, next :: _ => throw (.unreachableStatement next.span)
    | _, _ => body builtins condition last rest

end

end Lowering

end ScriptGraph
