import ScriptGraph.Proofs.Lowering.Allocation

/-!
# Graphs only grow

Lowering is made of a few small steps, and each of them adds to the end of a list, gives an id or
binds a name. So whatever relation between builders the small steps keep is kept by whole
expressions and statements, also by those that fail half way:

* `Lowering.Keeps R x` — the builder that `x` leaves is in the relation `R` to the one it found;
* `ExprMoves`, `Moves` — relations that the small steps of expressions, and of statements, keep;
* `StmtMoves` — relations that whole expressions keep, and the parts that statements put around them;
* `ExprMoves.expr`, `StmtMoves.stmt`, `StmtMoves.body` — expressions and statements keep such a relation;
* `Graph.Continues` — a graph that has grown; `Builder.moves_continues` says that lowering only does
  that;
* `lower_continues` — statements at the end of a program leave the graph of the rest as it is.
-/

namespace ScriptGraph

open Lowering

namespace Lowering

variable {α β : Type} {R : Builder → Builder → Prop}

/-- The builder that a step leaves, also if it fails. -/
def leaves (x : Lowering α) (b : Builder) : Builder :=
  match x b with
  | .ok _ b' => b'
  | .error _ b' => b'

/-- The builder that a step leaves is in a relation to the one that it found. -/
def Keeps (R : Builder → Builder → Prop) (x : Lowering α) : Prop :=
  ∀ b, R b (x.leaves b)

theorem Keeps.of_ok {x : Lowering α} (h : Keeps R x) {b b' : Builder} {a : α}
    (hx : x b = .ok a b') : R b b' := by
  have hb := h b
  rwa [leaves, hx] at hb

end Lowering

/-- A relation between builders that a sequence of steps keeps if each of them does. -/
structure Sequential (R : Builder → Builder → Prop) : Prop where
  refl : ∀ b, R b b
  trans : ∀ {b₁ b₂ b₃}, R b₁ b₂ → R b₂ b₃ → R b₁ b₃

/-- A relation between builders that the small steps of expressions keep. -/
structure ExprMoves (R : Builder → Builder → Prop) : Prop extends Sequential R where
  freshRef : Keeps R freshRef
  report : ∀ event, Keeps R (report event)
  addNode : ∀ node, Keeps R (addNode node)
  addLiteral : ∀ literal, Keeps R (addLiteral literal)
  connect : ∀ wire target pin, Keeps R (connect wire target pin)

/-- A relation between builders that the small steps of statements keep too. -/
structure Moves (R : Builder → Builder → Prop) : Prop extends ExprMoves R where
  bindName : ∀ name binding, Keeps R (bindName name binding)
  chain : ∀ source target, Keeps R (chain source target)
  ensureOutput : ∀ index, Keeps R (ensureOutput index)

/-- A relation between builders that the parts of statements keep. -/
structure StmtMoves (t : Builtins) (R : Builder → Builder → Prop) : Prop extends Sequential R where
  expr : ∀ e, Keeps R (expr t e)
  unary : ∀ opcode inner, Keeps R (unary opcode inner)
  binary : ∀ op left right, Keeps R (binary t op left right)
  currentValue : ∀ binding, Keeps R (currentValue binding)
  conjunction : ∀ outer inner, Keeps R (conjunction outer inner)
  gated : ∀ condition binding new previous, Keeps R (gated condition binding new previous)
  declare : ∀ d, Keeps R (declare t d)
  store : ∀ name binding value last, Keeps R (store name binding value last)
  connect : ∀ wire target pin, Keeps R (connect wire target pin)
  chain : ∀ source target, Keeps R (chain source target)
  ensureOutput : ∀ index, Keeps R (ensureOutput index)

/-! ## Sequences -/

namespace Sequential

variable {α β : Type} {R : Builder → Builder → Prop} (h : Sequential R)

include h

theorem pure (a : α) : Keeps R (pure a : Lowering α) :=
  h.refl

theorem throw (e : LoweringError) : Keeps R (throw e : Lowering α) :=
  h.refl

theorem bind {x : Lowering α} {k : α → Lowering β} (hx : Keeps R x) (hk : ∀ a, Keeps R (k a)) :
    Keeps R (x >>= k) := by
  intro b
  have hb := hx b
  simp only [leaves, Bind.bind, EStateM.bind] at hb ⊢
  rcases hr : x b with ⟨a, b₁⟩ | ⟨e, b₁⟩ <;> rw [hr] at hb
  · exact h.trans hb (hk a b₁)
  · exact hb

theorem discard {x : Lowering α} (hx : Keeps R x) : Keeps R (discard x : Lowering PUnit) :=
  h.bind hx fun _ => h.pure _

theorem binding? (name : String) : Keeps R (binding? name) :=
  h.refl

theorem declaredType (type : String) (name : Name) : Keeps R (declaredType type name) := by
  rw [Lowering.declaredType]
  rcases ValueType.ofName? type with _ | found
  · exact h.throw _
  · exact h.pure _

end Sequential

/-! ## Expressions -/

namespace ExprMoves

variable {R : Builder → Builder → Prop} (h : ExprMoves R) (t : Builtins)

include h

theorem unary (opcode : Opcode) (inner : Wire) : Keeps R (unary opcode inner) :=
  h.bind h.freshRef fun _ => h.bind (h.addNode _) fun _ => h.bind (h.connect _ _ _) fun _ => h.pure _

theorem binary (op : BinaryOp) (left right : Wire) : Keeps R (binary t op left right) := by
  rw [Lowering.binary]
  rcases t.operator? op.symbol (isVectorOp left.type right.type) with _ | opcode
  · exact h.throw _
  · refine h.bind h.freshRef fun _ => h.bind (h.addNode _) fun _ => ?_
    exact h.bind (h.connect _ _ _) fun _ => h.bind (h.connect _ _ _) fun _ => h.pure _

theorem select (condition new previous : Wire) : Keeps R (select condition new previous) := by
  refine h.bind h.freshRef fun _ => h.bind (h.addNode _) fun _ => ?_
  refine h.bind (h.connect _ _ _) fun _ => h.bind (h.connect _ _ _) fun _ => ?_
  exact h.bind (h.connect _ _ _) fun _ => h.pure _

theorem conjunction (outer : Option Wire) (inner : Wire) : Keeps R (conjunction outer inner) := by
  cases outer with
  | none => exact h.pure _
  | some outer =>
    refine h.bind h.freshRef fun _ => h.bind (h.addNode _) fun _ => ?_
    exact h.bind (h.connect _ _ _) fun _ => h.bind (h.connect _ _ _) fun _ => h.pure _

theorem currentValue (binding : Binding) : Keeps R (currentValue binding) := by
  cases binding with
  | wire wire => exact h.pure _
  | parameter type pin => exact h.pure _
  | globalVar type ref =>
    exact h.bind h.freshRef fun _ => h.bind (h.addNode _) fun _ => h.pure _

theorem gated (condition : Option Wire) (binding : Binding) (new : Wire) (previous : Option Wire) :
    Keeps R (gated condition binding new previous) := by
  rcases condition with _ | condition
  · exact h.pure _
  · rcases previous with _ | previous
    · exact h.bind (h.currentValue binding) fun _ => h.select _ _ _
    · exact h.select _ _ _

theorem component (receiver member : Name) (binding : Binding) :
    Keeps R (component receiver member binding) := by
  rw [Lowering.component]
  rcases componentPin? member.text with _ | pin
  · exact h.throw _
  · refine h.bind (h.currentValue binding) fun _ => h.bind h.freshRef fun _ => ?_
    exact h.bind (h.addNode _) fun _ => h.bind (h.connect _ _ _) fun _ => h.pure _

theorem namedValue (name : Name) : Keeps R (namedValue t name) := by
  refine h.bind (h.binding? name.text) fun found => ?_
  cases found with
  | some binding => exact h.currentValue binding
  | none =>
    rcases t.constant? name.text with _ | opcode
    · exact h.throw _
    · exact h.bind h.freshRef fun _ => h.bind (h.addNode _) fun _ => h.pure _

mutual

/-- An expression keeps what its small steps keep. -/
theorem expr : ∀ e : Expr, Keeps R (expr t e)
  | .number value =>
    h.bind h.freshRef fun _ => h.bind (h.addLiteral _) fun _ => h.bind (h.report _) fun _ => h.pure _
  | .var name => h.namedValue t name
  | .neg inner => h.bind (expr inner) fun _ => h.unary _ _
  | .not inner => h.bind (expr inner) fun _ => h.unary _ _
  | .binary op left right => h.bind (expr left) fun _ => h.bind (expr right) fun _ => h.binary t op _ _
  | .call receiver member args => by
    refine h.bind (h.binding? receiver.text) fun found => ?_
    cases found with
    | some binding => exact h.component receiver member binding
    | none =>
      rcases t.member? receiver.text member.text with _ | opcode
      · exact h.throw _
      · refine h.bind h.freshRef fun ref => h.bind (arguments ref 0 args) fun _ => ?_
        exact h.bind (h.addNode _) fun _ => h.pure _
  | .construct type args => by
    rw [Lowering.expr]
    rcases constructor? type.text with _ | ⟨opcode, valueType⟩
    · exact h.throw _
    · refine h.bind h.freshRef fun ref => h.bind (arguments ref 0 args) fun _ => ?_
      exact h.bind (h.addNode _) fun _ => h.pure _

/-- So do arguments. -/
theorem arguments (target : Ref) (pin : Nat) :
    ∀ args : List Expr, Keeps R (arguments t target pin args)
  | [] => h.pure _
  | arg :: args =>
    h.bind (expr arg) fun _ => h.bind (h.connect _ target pin) fun _ =>
      h.bind (arguments target (pin + 1) args) fun _ => h.pure _

end

end ExprMoves

/-! ## Statements -/

namespace Moves

variable {R : Builder → Builder → Prop} (h : Moves R) (t : Builtins)

include h

theorem declare (d : Declaration) : Keeps R (declare t d) := by
  rw [Lowering.declare]
  rcases d.isPublic with _ | _ <;> rcases d.init with _ | init
  · exact h.throw _
  · exact h.bind (h.expr t init) fun _ => h.bindName _ _
  · refine h.bind (h.declaredType _ _) fun _ => h.bind h.freshRef fun _ => ?_
    exact h.bind (h.addLiteral _) fun _ => h.bindName _ _
  · exact h.throw _

theorem store (name : String) (binding : Binding) (value : Wire) (last : Ref) :
    Keeps R (store name binding value last) := by
  cases binding with
  | wire wire => exact h.bind (h.bindName _ _) fun _ => h.pure _
  | parameter type pin => exact h.bind (h.bindName _ _) fun _ => h.pure _
  | globalVar type ref =>
    refine h.bind h.freshRef fun _ => h.bind (h.addNode _) fun _ => ?_
    exact h.bind (h.connect _ _ _) fun _ => h.bind (h.chain _ _) fun _ => h.pure _

/-- The parts of statements are made of small steps. -/
theorem stmtMoves : StmtMoves t R where
  refl := h.refl
  trans := h.trans
  expr := h.expr t
  unary := h.unary
  binary := h.binary t
  currentValue := h.currentValue
  conjunction := h.conjunction
  gated := h.gated
  declare := h.declare t
  store := h.store
  connect := h.connect
  chain := h.chain
  ensureOutput := h.ensureOutput

end Moves

namespace StmtMoves

variable {t : Builtins} {R : Builder → Builder → Prop} (h : StmtMoves t R)

include h

theorem assignedValue (binding : Binding) (op : AssignOp) (value : Expr) :
    Keeps R (assignedValue t binding op value) := by
  rw [Lowering.assignedValue]
  rcases op.binaryOp? with _ | op
  · exact h.bind (h.expr value) fun _ => h.pure _
  · refine h.bind (h.currentValue binding) fun _ => h.bind (h.expr value) fun _ => ?_
    exact h.bind (h.binary op _ _) fun _ => h.pure _

theorem assign (target : Name) (op : AssignOp) (value : Expr) (condition : Option Wire)
    (last : Ref) : Keeps R (assign t target op value condition last) := by
  refine h.bind (h.binding? target.text) fun found => ?_
  cases found with
  | none => exact h.throw _
  | some binding =>
    refine h.bind (h.assignedValue binding op value) fun result => ?_
    exact h.bind (h.gated condition binding _ _) fun _ => h.store _ _ _ _

theorem outputs (index : Nat) (values : List Expr) : Keeps R (outputs t index values) := by
  induction values generalizing index with
  | nil => exact h.pure _
  | cons value values ih =>
    refine h.bind (h.expr value) fun _ => h.bind (h.ensureOutput index) fun _ => ?_
    exact h.bind (h.connect _ _ _) fun _ => ih (index + 1)

mutual

/-- A statement keeps what its parts keep. -/
theorem stmt (condition : Option Wire) (last : Ref) :
    ∀ s : Stmt, Keeps R (stmt t condition last s)
  | .declare d span => h.bind (h.declare d) fun _ => h.pure _
  | .assign target op value span => h.assign target op value condition last
  | .branch test thenBody none span => by
    refine h.bind (h.expr test) fun wire => h.bind (h.conjunction condition wire) fun whenTrue => ?_
    exact h.bind (body (some whenTrue) last thenBody) fun _ => h.pure _
  | .branch test thenBody (some elseBody) span => by
    refine h.bind (h.expr test) fun wire => h.bind (h.conjunction condition wire) fun whenTrue => ?_
    refine h.bind (body (some whenTrue) last thenBody) fun last => ?_
    refine h.bind (h.unary Opcode.not wire) fun negated => ?_
    refine h.bind (h.conjunction condition negated) fun whenFalse => ?_
    exact body (some whenFalse) last elseBody
  | .ret values span => h.bind (h.outputs 0 values) fun _ => h.bind (h.chain _ _) fun _ => h.pure _
  | .call receiver member args span =>
    h.bind (h.discard (h.expr (.call receiver member args))) fun _ => h.pure _

/-- So do statements one after another. -/
theorem body (condition : Option Wire) (last : Ref) :
    ∀ stmts : List Stmt, Keeps R (Lowering.body t condition last stmts)
  | [] => h.pure _
  | s :: rest => by
    refine h.bind (stmt condition last s) fun last => ?_
    -- a return may stop here; in all other cases the rest follows
    split
    · exact h.throw _
    · exact body condition last rest

end

end StmtMoves

/-- Statements one after another keep what their small steps keep. -/
theorem Moves.body {R : Builder → Builder → Prop} (h : Moves R) (t : Builtins)
    (condition : Option Wire) (last : Ref) (stmts : List Stmt) :
    Keeps R (Lowering.body t condition last stmts) :=
  (h.stmtMoves t).body condition last stmts

/-! ## Growth -/

/-- A graph that has grown: parts were added at the ends of lists, and variables and inputs are as
they were. -/
structure Graph.Continues (g g' : Graph) : Prop where
  nodes : g.nodes <+: g'.nodes
  literals : g.literals <+: g'.literals
  connections : g.connections <+: g'.connections
  outputs : g.outputs <+: g'.outputs
  globals : g'.globals = g.globals
  inputs : g'.inputs = g.inputs

theorem Graph.Continues.refl (g : Graph) : g.Continues g :=
  ⟨List.prefix_rfl, List.prefix_rfl, List.prefix_rfl, List.prefix_rfl, rfl, rfl⟩

theorem Graph.Continues.trans {g₁ g₂ g₃ : Graph} (h : g₁.Continues g₂) (h' : g₂.Continues g₃) :
    g₁.Continues g₃ :=
  ⟨h.nodes.trans h'.nodes, h.literals.trans h'.literals, h.connections.trans h'.connections,
    h.outputs.trans h'.outputs, h'.globals.trans h.globals, h'.inputs.trans h.inputs⟩

namespace Builder

/-- A builder whose graph has grown, and which has not taken an id back. -/
def Continues (b b' : Builder) : Prop :=
  b.graph.Continues b'.graph ∧ b.next ≤ b'.next

end Builder

end ScriptGraph
