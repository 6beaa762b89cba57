import ScriptGraph.Proofs.Tree.Change
import ScriptGraph.Proofs.Tree.Roles

/-!
# Numbers in a program

Two programs can be the same but for the values of their numbers. `blank` forgets these values, so
that such programs have the same blank one. `values` keeps nothing else: it lists what the literals of
a graph will hold, in the order in which they are made.

* `Change.blank`, `Program.blank` — the text with zero for every number;
* `Expr.values`, `Stmt.values`, `Program.values` — the values of the literals that the text asks for;
* `LiteralSource`, `Stmt.sources`, `Program.sources` — what these literals are made for.
-/

namespace ScriptGraph

/-! ## Programs without their numbers -/

/-- The change that puts zero for every number. -/
def Change.blank : Change where
  number _ := .ofInt 0

@[simp] theorem Change.blank_name (name : Name) : Change.blank.name name = name := rfl

@[simp] theorem Change.blank_place (span : Span) : Change.blank.place span = span := rfl

@[simp] theorem Change.blank_number (value : Binary32) : Change.blank.number value = .ofInt 0 := by
  rw [Change.blank]

/-- A program with zero for every number. -/
abbrev Program.blank (p : Program) : Program :=
  p.map .blank

/-! ## The values of literals -/

namespace Expr

mutual

/-- The numbers of an expression, from left to right. -/
def values (names : Names) : Expr → List Binary32
  | .number value => [value]
  | .var _ => []
  | .neg inner => inner.values names
  | .not inner => inner.values names
  | .binary _ left right => left.values names ++ right.values names
  | .call receiver _ args =>
    -- the arguments of a component are not looked at
    if (names receiver.text).isSome then [] else argsValues names args
  | .construct _ args => argsValues names args

/-- The numbers of some arguments. -/
def argsValues (names : Names) : List Expr → List Binary32
  | [] => []
  | arg :: args => arg.values names ++ argsValues names args

end

end Expr

namespace Stmt

mutual

/-- The numbers of a statement. A public declaration is a literal too, and holds zero. -/
def values (names : Names) : Stmt → List Binary32
  | .declare d _ =>
    if d.isPublic then [.ofInt 0] else d.init.elim [] (Expr.values names)
  | .assign _ _ value _ => value.values names
  | .branch test thenBody none _ => test.values names ++ bodyValues names thenBody
  | .branch test thenBody (some elseBody) _ =>
    test.values names ++ bodyValues names thenBody ++
      bodyValues (names.hide (bodyDeclared thenBody)) elseBody
  | .ret values _ => Expr.argsValues names values
  | .call receiver member args _ => (Expr.call receiver member args).values names

/-- The numbers of statements one after another. -/
def bodyValues (names : Names) : List Stmt → List Binary32
  | [] => []
  | s :: rest => s.values names ++ bodyValues (names.hide s.declared) rest

end

end Stmt

/-- The values of the literals of a program. -/
def Program.values (p : Program) : List Binary32 :=
  p.entry?.elim [] fun m => Stmt.bodyValues (p.names m) m.body

/-! ## What literals are made for -/

/-- What a literal is made for. -/
inductive LiteralSource : Type where
  /-- a number of the text -/
  | number (value : Binary32)
  /-- a public declaration -/
  | declaration (name : String)
  deriving DecidableEq, Repr

namespace LiteralSource

/-- The value of the literal: a public value is zero until it is set. -/
def value : LiteralSource → Binary32
  | .number value => value
  | .declaration _ => .ofInt 0

/-- Is the literal made for a public declaration? -/
def isDeclaration : LiteralSource → Bool
  | .number _ => false
  | .declaration _ => true

theorem map_value_number (values : List Binary32) :
    (values.map number).map value = values := by
  rw [List.map_map]
  exact List.map_id values

end LiteralSource

namespace Stmt

mutual

/-- What the literals of a statement are made for, in the order of the text. -/
def sources (names : Names) : Stmt → List LiteralSource
  | .declare d _ =>
    if d.isPublic then [.declaration d.name.text]
    else (d.init.elim [] (Expr.values names)).map .number
  | .assign _ _ value _ => (value.values names).map .number
  | .branch test thenBody none _ =>
    (test.values names).map .number ++ bodySources names thenBody
  | .branch test thenBody (some elseBody) _ =>
    (test.values names).map .number ++ bodySources names thenBody ++
      bodySources (names.hide (bodyDeclared thenBody)) elseBody
  | .ret values _ => (Expr.argsValues names values).map .number
  | .call receiver member args _ => ((Expr.call receiver member args).values names).map .number

/-- What the literals of statements one after another are made for. -/
def bodySources (names : Names) : List Stmt → List LiteralSource
  | [] => []
  | s :: rest => s.sources names ++ bodySources (names.hide s.declared) rest

end

mutual

/-- The sources of a statement have its values. -/
theorem map_value_sources (names : Names) :
    ∀ s : Stmt, (s.sources names).map LiteralSource.value = s.values names
  | .declare d _ => by
    rw [sources, values]
    split
    · rfl
    · exact LiteralSource.map_value_number _
  | .assign _ _ value _ => LiteralSource.map_value_number _
  | .branch test thenBody none _ => by
    rw [sources, values, List.map_append, LiteralSource.map_value_number,
      map_value_bodySources names thenBody]
  | .branch test thenBody (some elseBody) _ => by
    rw [sources, values, List.map_append, List.map_append, LiteralSource.map_value_number,
      map_value_bodySources names thenBody, map_value_bodySources _ elseBody]
  | .ret values _ => LiteralSource.map_value_number _
  | .call receiver member args _ => LiteralSource.map_value_number _

theorem map_value_bodySources (names : Names) :
    ∀ body : List Stmt, (bodySources names body).map LiteralSource.value = bodyValues names body
  | [] => rfl
  | s :: rest => by
    rw [bodySources, bodyValues, List.map_append, map_value_sources names s,
      map_value_bodySources _ rest]

end

end Stmt

/-- What the literals of a program are made for. -/
def Program.sources (p : Program) : List LiteralSource :=
  p.entry?.elim [] fun m => Stmt.bodySources (p.names m) m.body

theorem Program.map_value_sources (p : Program) :
    p.sources.map LiteralSource.value = p.values := by
  rw [sources, values]
  cases p.entry? with
  | none => rfl
  | some m => exact Stmt.map_value_bodySources _ _

end ScriptGraph
