import ScriptGraph.Tree.Basic

/-!
# Changes of a tree

A tree has names, places and numbers at its leaves. A `Change` says what to put for each of them, and
`Expr.map`, `Stmt.map` and `Program.map` carry it out. Nothing else in the tree changes: not the
types as they are written, not the operators and not the order of its parts.
-/

namespace ScriptGraph

/-- What to put for the names, the places and the numbers in a tree. -/
structure Change where
  /-- for a name, with its own place -/
  name : Name → Name := id
  /-- for the place of a statement -/
  place : Span → Span := id
  /-- for a number -/
  number : Binary32 → Binary32 := id

variable (k : Change)

mutual

/-- An expression after a change. -/
def Expr.map : Expr → Expr
  | .number value => .number (k.number value)
  | .var name => .var (k.name name)
  | .neg inner => .neg inner.map
  | .not inner => .not inner.map
  | .binary op left right => .binary op left.map right.map
  | .call receiver member args => .call (k.name receiver) (k.name member) (Expr.mapArgs args)
  | .construct type args => .construct (k.name type) (Expr.mapArgs args)

/-- Arguments after a change. -/
def Expr.mapArgs : List Expr → List Expr
  | [] => []
  | arg :: args => arg.map :: Expr.mapArgs args

end

/-- A declaration after a change. -/
def Declaration.map (d : Declaration) : Declaration :=
  ⟨d.type, k.name d.name, d.init.map (Expr.map k), d.isPublic⟩

mutual

/-- A statement after a change. -/
def Stmt.map : Stmt → Stmt
  | .declare d span => .declare (d.map k) (k.place span)
  | .assign target op value span => .assign (k.name target) op (value.map k) (k.place span)
  | .branch test thenBody elseBody span =>
    .branch (test.map k) (Stmt.mapBody thenBody) (Stmt.mapElse elseBody) (k.place span)
  | .ret values span => .ret (Expr.mapArgs k values) (k.place span)
  | .call receiver member args span =>
    .call (k.name receiver) (k.name member) (Expr.mapArgs k args) (k.place span)

/-- Statements after a change. -/
def Stmt.mapBody : List Stmt → List Stmt
  | [] => []
  | s :: body => s.map :: Stmt.mapBody body

/-- The second branch of a choice after a change. -/
def Stmt.mapElse : Option (List Stmt) → Option (List Stmt)
  | none => none
  | some body => some (Stmt.mapBody body)

end

@[simp] theorem Stmt.span_map (s : Stmt) : (s.map k).span = k.place s.span := by
  cases s <;> rfl

/-- A parameter after a change. -/
def Parameter.map (p : Parameter) : Parameter :=
  ⟨p.type, k.name p.name⟩

/-- A method after a change. -/
def Method.map (m : Method) : Method :=
  ⟨k.name m.name, m.params.map (Parameter.map k), Stmt.mapBody k m.body⟩

/-- A declaration at the top level after a change. -/
def Item.map : Item → Item
  | .method m => .method (m.map k)
  | .globalVar d => .globalVar (d.map k)

namespace Program

/-- A program after a change. -/
def map (p : Program) : Program :=
  ⟨p.items.map (Item.map k)⟩

theorem globals_map (p : Program) : (p.map k).globals = p.globals.map (Declaration.map k) := by
  rw [globals, globals, map, List.filterMap_map, List.map_filterMap]
  congr 1
  funext item
  cases item <;> rfl

theorem methods_map (p : Program) : (p.map k).methods = p.methods.map (Method.map k) := by
  rw [methods, methods, map, List.filterMap_map, List.map_filterMap]
  congr 1
  funext item
  cases item <;> rfl

/-- A change that keeps the texts of names keeps the entry method. -/
theorem entry?_map {k : Change} (hk : ∀ name, (k.name name).text = name.text) (p : Program) :
    Program.entry? (p.map k) = p.entry?.map (Method.map k) := by
  rw [ entry?, methods_map, List.find?_map]
  simp only [Function.comp_def, Method.map, hk]
  rfl

end Program

end ScriptGraph
