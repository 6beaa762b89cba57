import ScriptGraph.Proofs.Tree.Names

/-!
# The nodes that a program asks for

Which nodes lowering makes can be read off the text. An operator asks for one node, a call for one
with as many inputs as it has arguments, and a name for a node only if it stands for a global
variable or for nothing. What a name stands for depends on what was declared before it, in the order
of the text; assignments do not change that.

* `Names` — what the names stand for at a point of the text;
* `Role` — what a node is there for, and so how many inputs it has;
* `Expr.roles`, `Stmt.roles`, `Program.roles` — the roles of the nodes, in the order in which the nodes
  are made.
-/

namespace ScriptGraph

/-- What a bound name stands for: a global variable, which is accessed by nodes, or a value. -/
inductive Standing where
  | variable
  | value
  deriving DecidableEq, Repr

/-- What a node is there for. -/
inductive Role where
  /-- an access to a global variable -/
  | read
  | write
  /-- a constant of the runtime -/
  | constant (name : String)
  /-- an operator -/
  | negate
  | not
  | operator (op : BinaryOp)
  /-- a component of a value -/
  | split
  /-- the conjunction of two conditions -/
  | and
  /-- the choice between a new value and the previous one -/
  | select
  /-- a function of the runtime, with the number of its arguments -/
  | function (receiver member : String) (arguments : Nat)
  /-- a vector, with the number of its components -/
  | construct (type : String) (arguments : Nat)
  deriving DecidableEq, Repr

/-- How many inputs a node has. -/
def Role.arity : Role → Nat
  | .read => 0
  | .write => 1
  | .constant _ => 0
  | .negate => 1
  | .not => 1
  | .operator _ => 2
  | .split => 1
  | .and => 2
  | .select => 3
  | .function _ _ arguments => arguments
  | .construct _ arguments => arguments

namespace Standing

/-- The node for the value of a name. -/
def reads : Standing → List Role
  | .variable => [.read]
  | .value => []

/-- The node for an assignment to a name. -/
def writes : Standing → List Role
  | .variable => [.write]
  | .value => []

end Standing

/-- What the names stand for. -/
abbrev Names := String → Option Standing

namespace Names

/-- Names that are declared stand for values from there on. -/
def hide (names : Names) (declared : List String) : Names :=
  fun name => if name ∈ declared then some .value else names name

/-- The nodes for the value of a bound name. -/
def reads (names : Names) (name : String) : List Role :=
  (names name).elim [] Standing.reads

/-- The nodes for an assignment to a name. -/
def writes (names : Names) (name : String) : List Role :=
  (names name).elim [] Standing.writes

@[simp]
theorem hide_nil (names : Names) : names.hide [] = names := by
  funext name
  simp [hide]

theorem hide_append (names : Names) (first second : List String) :
    names.hide (first ++ second) = (names.hide first).hide second := by
  funext name
  by_cases h₁ : name ∈ first <;> by_cases h₂ : name ∈ second <;> simp [hide, h₁, h₂]

end Names

/-! ## Roles in a text -/

namespace Expr

mutual

/-- The nodes of an expression. -/
def roles (names : Names) : Expr → List Role
  | .number _ => []
  | .var name =>
    if (names name.text).isSome then names.reads name.text else [.constant name.text]
  | .neg inner => inner.roles names ++ [.negate]
  | .not inner => inner.roles names ++ [.not]
  | .binary op left right => left.roles names ++ right.roles names ++ [.operator op]
  | .call receiver member args =>
    -- the arguments of a component are not looked at
    if (names receiver.text).isSome then names.reads receiver.text ++ [.split]
    else argsRoles names args ++ [.function receiver.text member.text args.length]
  | .construct type args => argsRoles names args ++ [.construct type.text args.length]

/-- The nodes of some arguments. -/
def argsRoles (names : Names) : List Expr → List Role
  | [] => []
  | arg :: args => arg.roles names ++ argsRoles names args

end

end Expr

namespace Stmt

/-- The node that joins an inner condition with an outer one. -/
def joint (conditional : Bool) : List Role :=
  if conditional then [.and] else []

/-- The nodes of an assignment. Under a condition the previous value takes part; where an operator
has read it, it is not read again. -/
def assignRoles (conditional : Bool) (names : Names) (target : String) (op : Option BinaryOp)
    (value : Expr) : List Role :=
  match op with
  | none =>
    value.roles names ++ (if conditional then names.reads target ++ [.select] else []) ++
      names.writes target
  | some op =>
    names.reads target ++ value.roles names ++ [.operator op] ++
      (if conditional then [.select] else []) ++ names.writes target

mutual

/-- The nodes of a statement, which may stand under a condition. -/
def roles (conditional : Bool) (names : Names) : Stmt → List Role
  | .declare d _ => d.init.elim [] (Expr.roles names)
  | .assign target op value _ => assignRoles conditional names target.text op.binaryOp? value
  | .branch test thenBody none _ =>
    test.roles names ++ joint conditional ++ bodyRoles true names thenBody
  | .branch test thenBody (some elseBody) _ =>
    test.roles names ++ joint conditional ++ bodyRoles true names thenBody ++ [.not] ++
      joint conditional ++ bodyRoles true (names.hide (bodyDeclared thenBody)) elseBody
  | .ret values _ => Expr.argsRoles names values
  | .call receiver member args _ => (Expr.call receiver member args).roles names

/-- The nodes of statements one after another. -/
def bodyRoles (conditional : Bool) (names : Names) : List Stmt → List Role
  | [] => []
  | s :: rest =>
    s.roles conditional names ++ bodyRoles conditional (names.hide s.declared) rest

end

end Stmt

/-- What the names stand for at the beginning of a method: a parameter hides a global variable. -/
def Program.names (p : Program) (m : Method) : Names :=
  Names.hide (fun name => if name ∈ p.globals.map (·.name.text) then some .variable else none)
    (m.params.map (·.name.text))

/-- The nodes of a program. -/
def Program.roles (p : Program) : List Role :=
  p.entry?.elim [] fun m => Stmt.bodyRoles false (p.names m) m.body

end ScriptGraph
