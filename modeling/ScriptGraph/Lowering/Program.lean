import ScriptGraph.Lowering.Statement

/-!
# Lowering of programs

Global variables are declared first, wherever the text declares them; then the entry method is
lowered, its parameters before its body. Other methods have no graph. The graph that comes out knows
the next id to be given.
-/

namespace ScriptGraph

namespace Lowering

/-- Lowers the declaration of a global variable. -/
def declareGlobal (d : Declaration) : Lowering Unit := do
  let type ← declaredType d.type d.name
  match type.defaultText? with
  | none => throw (.unknownType d.name.span d.type)
  | some default =>
    let ref ← freshRef
    onGraph fun g =>
      { g with globals := g.globals ++ [⟨d.name.text, ref, type.recordName, default⟩] }
    bindName d.name.text (.globalVar type ref)
    report (.globalDeclared d.name.text ref)

/-- Lowers the declarations of global variables. -/
def declareGlobals : List Declaration → Lowering Unit
  | [] => return ()
  | d :: ds => do
    declareGlobal d
    declareGlobals ds

/-- Lowers parameters to the inputs of the method from `pin` on. -/
def parameters (pin : Nat) : List Parameter → Lowering Unit
  | [] => return ()
  | p :: ps => do
    let type ← declaredType p.type p.name
    onGraph fun g => { g with inputs := g.inputs ++ [{ name := p.name.text }] }
    bindName p.name.text (.parameter type pin)
    parameters (pin + 1) ps

/-- Lowers a method. -/
def method (builtins : Builtins) (m : Method) : Lowering Unit := do
  parameters 0 m.params
  let last ← body builtins none Ref.endpoint m.body
  report (.methodDone m.name.text last)

/-- Lowers a program. Global variables come first, wherever the text declares them. -/
def program (builtins : Builtins) (p : Program) : Lowering Graph := do
  declareGlobals p.globals
  match p.entry? with
  | some m => method builtins m
  | none => pure ()
  modify fun b => { b with graph := { b.graph with counter := b.next } }
  let g := (← get).graph
  report (.lowered g.nodes.length g.literals.length g.connections.length)
  return g

end Lowering

/-- The graph of a program, with ids from `first` on, as many as it needs. -/
def Program.lower (p : Program) (builtins : Builtins) (first : Ref) : Except LoweringError Graph :=
  match Lowering.program builtins p (Builder.start first) with
  | .ok g _ => .ok g
  | .error e _ => .error e

/-- The reports of lowering a program, also if that fails. -/
def Program.loweringEvents (p : Program) (builtins : Builtins) (first : Ref) : List Event :=
  match Lowering.program builtins p (Builder.start first) with
  | .ok _ b => b.events
  | .error _ b => b.events

end ScriptGraph
