import ScriptGraph.Lowering.Expression

/-!
# What a program means

A program is run directly on its tree: global variables are in a store, parameters and locals in an
environment, a choice runs one of its bodies, and expressions only look names up. What the operations
of the runtime do is left open:

* `Runtime` — values, and the outputs of each operation on its inputs;
* `Runtime.Lawful` — the little that lowering relies on;
* `Expr.eval`, `Stmt.exec`, `Program.exec` — the meaning of expressions, statements and programs.

A run fails where a name means nothing.
-/

namespace ScriptGraph

/-- The operations of the runtime on values of a type `V`. -/
structure Runtime (V : Type) where
  /-- the value of a number -/
  number : Binary32 → V
  /-- the value at each output of an operation on some inputs -/
  operation : Opcode → List V → Nat → V
  /-- does a value count as true? -/
  truth : V → Bool

/-- The operation of a binary operator, whatever its operands: where the table of builtins lists
both variants, it does not matter which one is taken. -/
def Builtins.operation? (t : Builtins) (op : BinaryOp) : Option Opcode :=
  (t.operator? op.symbol false).or (t.operator? op.symbol true)

/-- What lowering relies on: the joints of conditions do what they say, both variants of an operator
are one function, and so are both splitters, output by output. -/
structure Runtime.Lawful {V : Type} (rt : Runtime V) (t : Builtins) : Prop where
  select : ∀ c x y, rt.operation Opcode.select [c, x, y] 0 = if rt.truth c then x else y
  and : ∀ a b, rt.truth (rt.operation Opcode.and [a, b] 0) = (rt.truth a && rt.truth b)
  not : ∀ a, rt.truth (rt.operation Opcode.not [a] 0) = !rt.truth a
  variants : ∀ (op : BinaryOp) (scalar vector : Opcode),
    t.operator? op.symbol false = some scalar → t.operator? op.symbol true = some vector →
    ∀ x y, rt.operation vector [x, y] 0 = rt.operation scalar [x, y] 0
  splitters : ∀ x pin,
    rt.operation Opcode.splitVector3 [x] pin = rt.operation Opcode.splitVector2 [x] pin

variable {V : Type} (rt : Runtime V) (t : Builtins)

/-- A binary operator on two values. -/
def Runtime.binary? (op : BinaryOp) (x y : V) : Option V :=
  (t.operation? op).map fun opcode => rt.operation opcode [x, y] 0

/-! ## Expressions -/

mutual

/-- The value of an expression, where `look` says what the names mean. -/
def Expr.eval (look : String → Option V) : Expr → Option V
  | .number value => some (rt.number value)
  | .var name =>
    match look name.text with
    | some v => some v
    | none => (t.constant? name.text).map fun opcode => rt.operation opcode [] 0
  | .neg inner => do
    let v ← inner.eval look
    return rt.operation Opcode.negate [v] 0
  | .not inner => do
    let v ← inner.eval look
    return rt.operation Opcode.not [v] 0
  | .binary op left right => do
    let l ← left.eval look
    let r ← right.eval look
    rt.binary? t op l r
  | .call receiver member args =>
    match look receiver.text with
    | some v => (componentPin? member.text).map fun pin => rt.operation Opcode.splitVector2 [v] pin
    | none => do
      let opcode ← t.member? receiver.text member.text
      let vs ← Expr.evalArgs look args
      return rt.operation opcode vs 0
  | .construct type args => do
    let (opcode, _) ← constructor? type.text
    let vs ← Expr.evalArgs look args
    return rt.operation opcode vs 0

/-- The values of arguments, from left to right. -/
def Expr.evalArgs (look : String → Option V) : List Expr → Option (List V)
  | [] => some []
  | arg :: args => do
    let v ← arg.eval look
    let vs ← Expr.evalArgs look args
    return v :: vs

end

/-! ## Statements -/

/-- What names mean while a method runs. -/
structure Frame (V : Type) where
  /-- the global variables -/
  globals : Dictionary V
  /-- the parameters and locals -/
  locals : Dictionary V

namespace Frame

variable {V : Type}

/-- The value of a name; a local hides a global variable. -/
def get? (f : Frame V) (name : String) : Option V :=
  (f.locals.get? name).or (f.globals.get? name)

/-- A local is declared. -/
def declare (f : Frame V) (name : String) (v : V) : Frame V :=
  { f with locals := f.locals.insert name v }

/-- A name takes a new value: the local if there is one, else the global variable. -/
def set (f : Frame V) (name : String) (v : V) : Frame V :=
  match f.locals.get? name with
  | some _ => f.declare name v
  | none => { f with globals := f.globals.insert name v }

end Frame

/-- The value that an assignment leaves, from the old value of its target and that of its
right-hand side. -/
def AssignOp.combine (op : AssignOp) (old v : V) : Option V :=
  match op.binaryOp? with
  | none => some v
  | some op => rt.binary? t op old v

mutual

/-- Runs a statement; yields the frame behind it, and the results if it returned. -/
def Stmt.exec (f : Frame V) : Stmt → Option (Frame V × Option (List V))
  | .declare d _ =>
    match d.init with
    | none => some (f.declare d.name.text (rt.number (.ofInt 0)), none)
    | some init => do
      let v ← init.eval rt t f.get?
      return (f.declare d.name.text v, none)
  | .assign target op value _ => do
    let old ← f.get? target.text
    let v ← value.eval rt t f.get?
    let new ← op.combine rt t old v
    return (f.set target.text new, none)
  | .branch test thenBody elseBody _ => do
    let v ← test.eval rt t f.get?
    if rt.truth v then Stmt.execBody f thenBody
    else
      match elseBody with
      | none => some (f, none)
      | some elseBody => Stmt.execBody f elseBody
  | .ret values _ => do
    let vs ← Expr.evalArgs rt t f.get? values
    return (f, some vs)
  | .call receiver member args _ => do
    let _ ← (Expr.call receiver member args).eval rt t f.get?
    return (f, none)

/-- Runs statements one after another, up to a return. -/
def Stmt.execBody (f : Frame V) : List Stmt → Option (Frame V × Option (List V))
  | [] => some (f, none)
  | s :: rest => do
    let (f', results) ← s.exec f
    match results with
    | some vs => some (f', some vs)
    | none => Stmt.execBody f' rest

end

/-! ## Programs -/

/-- The parameters of a method with their values, the first of which is at `pin`. -/
def Parameter.bindAll (args : Nat → V) (pin : Nat) (locals : Dictionary V) :
    List Parameter → Dictionary V
  | [] => locals
  | p :: ps => Parameter.bindAll args (pin + 1) (locals.insert p.name.text (args pin)) ps

/-- Runs a program on global variables and arguments; yields the variables behind it and the
results. A program without an entry method does nothing. -/
def Program.exec (p : Program) (globals : Dictionary V) (args : Nat → V) :
    Option (Dictionary V × List V) :=
  match p.entry? with
  | none => some (globals, [])
  | some m => do
    let (f, results) ← Stmt.execBody rt t ⟨globals, Parameter.bindAll args 0 .empty m.params⟩ m.body
    return (f.globals, results.getD [])

end ScriptGraph
