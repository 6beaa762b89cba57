import ScriptGraph.Tree.Basic

/-!
# The parts of a tree

All that occurs in a method, at any depth, as lists: the bodies, the statements of each, the
expressions of each statement, and the parts of each expression.
-/

namespace ScriptGraph

namespace Expr

mutual

/-- An expression and all expressions in it. -/
def parts : Expr → List Expr
  | .number value => [.number value]
  | .var name => [.var name]
  | .neg inner => .neg inner :: inner.parts
  | .not inner => .not inner :: inner.parts
  | .binary op left right => .binary op left right :: (left.parts ++ right.parts)
  | .call receiver member args => .call receiver member args :: argsParts args
  | .construct type args => .construct type args :: argsParts args

/-- Some arguments and all expressions in them. -/
def argsParts : List Expr → List Expr
  | [] => []
  | arg :: args => arg.parts ++ argsParts args

end

theorem mem_parts_self (e : Expr) : e ∈ e.parts := by
  cases e <;> simp [parts]

theorem mem_argsParts {args : List Expr} {x : Expr} :
    x ∈ argsParts args ↔ ∃ arg ∈ args, x ∈ arg.parts := by
  induction args with
  | nil => simp [argsParts]
  | cons arg args ih => simp [argsParts, ih]

theorem mem_argsNames {args : List Expr} {n : Name} :
    n ∈ argsNames args ↔ ∃ arg ∈ args, n ∈ arg.names := by
  induction args with
  | nil => simp [argsNames]
  | cons arg args ih => simp [argsNames, ih]

end Expr

namespace Stmt

/-- The expressions of a statement, without those in its branches. -/
def exprs : Stmt → List Expr
  | .declare d _ => d.init.toList
  | .assign _ _ value _ => [value]
  | .branch test _ _ _ => [test]
  | .ret values _ => values
  | .call receiver member args _ => [.call receiver member args]

mutual

/-- The bodies in the branches of a statement, each before those inside of it. -/
def bodies : Stmt → List (List Stmt)
  | .branch _ thenBody none _ => thenBody :: bodiesIn thenBody
  | .branch _ thenBody (some elseBody) _ =>
    thenBody :: bodiesIn thenBody ++ elseBody :: bodiesIn elseBody
  | _ => []

/-- The bodies in the branches of some statements. -/
def bodiesIn : List Stmt → List (List Stmt)
  | [] => []
  | s :: rest => s.bodies ++ bodiesIn rest

end

end Stmt

namespace Method

/-- All bodies of a method: its own and those of branches. -/
def bodies (m : Method) : List (List Stmt) :=
  m.body :: Stmt.bodiesIn m.body

/-- All statements of a method. -/
def stmts (m : Method) : List Stmt :=
  m.bodies.flatten

/-- All expressions of a method. -/
def exprs (m : Method) : List Expr :=
  m.stmts.flatMap fun s => Expr.argsParts s.exprs

end Method

end ScriptGraph
