import ScriptGraph.Proofs.Lowering.Frame

/-!
# Expressions one after another

A builder is used for many expressions, and it is used on after one of them failed. What such a
failure leaves behind are ids without a part, and connections to them. No later part may take one of
these ids:

* `Builder.Allocates` — the ids of a builder are those of an earlier one and ids given on the way;
* `Piece` — whatever lowering does on the way, from single ids up to whole programs;
* `Builder.Reached` — a builder that pieces of lowering lead to, whether they fail or not;
* `Lowering.attempts` — expressions lowered one after another, failures included;
* `Builder.Reached.attempts_framed` — on a builder that is reached they add to the graph and leave
  all else as it is, and no id is given twice.
-/

namespace ScriptGraph

open Lowering

/-! ## Ids -/

namespace Builder

/-- The ids of the graph are those that it had and ids that were given on the way. -/
structure Allocates (b b' : Builder) : Prop where
  /-- the counter has not gone back -/
  next : b.next ≤ b'.next
  /-- no id is in use that was given before, and none twice -/
  refs : ∃ new, b'.graph.refs.Perm (b.graph.refs ++ new) ∧ new.Nodup ∧ ∀ r ∈ new, b.Gives b' r

/-- Ids of the graph were given since `first`, and none is in use twice. -/
structure Allotted (first : Ref) (b : Builder) : Prop where
  le : first ≤ b.next
  nodup : b.graph.refs.Nodup
  given : ∀ r ∈ b.graph.refs, first ≤ r ∧ r < b.next

variable {b b₁ b₂ b' : Builder} {first : Ref}

theorem allotted_start (first : Ref) : (start first).Allotted first :=
  ⟨Int.le_refl _, List.nodup_nil, nofun⟩

namespace Allocates

/-- Nothing new takes an id. -/
theorem same (hr : b'.graph.refs = b.graph.refs) (hn : b.next ≤ b'.next) : b.Allocates b' :=
  ⟨hn, [], by rw [hr, List.append_nil], List.nodup_nil, nofun⟩

/-- A part takes the next id. -/
theorem take (hr : b'.graph.refs.Perm (b.next :: b.graph.refs)) (hn : b'.next = b.next + 1) :
    b.Allocates b' := by
  refine ⟨hn ▸ Int.le_add_one (Int.le_refl _), [b.next], ?_, List.nodup_singleton _, fun r hr => ?_⟩
  · exact hr.trans (List.perm_append_singleton _ _).symm
  · obtain rfl := List.mem_singleton.mp hr
    exact gives_next (Int.le_of_eq hn.symm)

theorem refl (b : Builder) : b.Allocates b :=
  same rfl (Int.le_refl _)

theorem trans (h : b.Allocates b₁) (h' : b₁.Allocates b₂) : b.Allocates b₂ := by
  obtain ⟨hle, new, hperm, hnodup, hgiven⟩ := h
  obtain ⟨hle', new', hperm', hnodup', hgiven'⟩ := h'
  refine ⟨Int.le_trans hle hle', new ++ new', ?_, ?_, fun r hr => ?_⟩
  · rw [← List.append_assoc]
    exact hperm'.trans (hperm.append_right new')
  · exact List.nodup_append.mpr
      ⟨hnodup, hnodup', fun r hr r' hr' => (hgiven r hr).ne (hgiven' r' hr')⟩
  · rcases List.mem_append.mp hr with hr | hr
    · exact (hgiven r hr).mono (Int.le_refl _) hle'
    · exact (hgiven' r hr).mono hle (Int.le_refl _)

/-- Ids given on the way are none of those that the graph had. -/
theorem allotted (h : b.Allocates b') (hb : b.Allotted first) : b'.Allotted first := by
  obtain ⟨hle, new, hperm, hnodup, hgiven⟩ := h
  refine ⟨Int.le_trans hb.le hle, ?_, fun r hr => ?_⟩
  · rw [hperm.nodup_iff]
    refine List.nodup_append.mpr ⟨hb.nodup, hnodup, fun r hr r' hr' => ?_⟩
    exact Int.ne_of_lt (Int.lt_of_lt_of_le (hb.given r hr).2 (hgiven r' hr').1)
  · rcases List.mem_append.mp (hperm.mem_iff.mp hr) with hr | hr
    · exact ⟨(hb.given r hr).1, Int.lt_of_lt_of_le (hb.given r hr).2 hle⟩
    · exact ⟨Int.le_trans hb.le (hgiven r hr).1, (hgiven r hr).2⟩

end Allocates

/-- An id that was given before is in use only if it was: what was added has other ids. -/
theorem Framed.mem_refs {opens : List Ref} {r : Ref} (h : b.Framed opens b')
    (hr : r ∈ b'.graph.refs) (hlt : r < b.next) : r ∈ b.graph.refs := by
  obtain ⟨a, ha⟩ := h
  rw [ha.graph, (b.graph.refs_add a).mem_iff] at hr
  rcases List.mem_append.mp hr with hr | hr
  · exact hr
  · exact absurd hlt (Int.not_lt.mpr (ha.given r hr).1)

/-- An addition takes ids given on the way. -/
theorem Framed.allocates {opens : List Ref} (h : b.Framed opens b') : b.Allocates b' := by
  obtain ⟨a, ha⟩ := h
  exact ⟨ha.next, a.refs, ha.graph ▸ b.graph.refs_add a, ha.nodup, ha.given⟩

end Builder

/-! ## Pieces of lowering -/

namespace Lowering

open Builder

theorem allocating : Sequential Allocates where
  refl := .refl
  trans h h' := h.trans h'

/-- What makes an addition takes ids that were given on the way. -/
theorem Keeps.allocates {α : Type} {x : Lowering α} (h : Keeps (Framed []) x) : Keeps Allocates x :=
  fun b => (h b).allocates

theorem store_allocates (name : String) (binding : Binding) (value : Wire) (last : Ref) :
    Keeps Allocates (store name binding value last) := by
  intro b
  rw [leaves, store_run]
  cases binding with
  | wire wire => exact .same rfl (Int.le_refl _)
  | parameter type pin => exact .same rfl (Int.le_refl _)
  | globalVar type ref => exact .take (b.refs_emit _ _ ref [value]) rfl

theorem declare_allocates (t : Builtins) (d : Declaration) : Keeps Allocates (declare t d) := by
  rw [declare]
  rcases d.isPublic with _ | _ <;> rcases d.init with _ | init
  · exact allocating.throw _
  · exact allocating.bind (expr_framed t init).allocates fun _ b => .same rfl (Int.le_refl _)
  · refine allocating.bind (allocating.declaredType _ _) fun type b => ?_
    exact .take (b.refs_addLiteral d.name.text Place.publicValue (.ofInt 0)) rfl
  · exact allocating.throw _

/-- The parts of statements take ids that were given on the way. -/
theorem stmtMoves_allocates (t : Builtins) : StmtMoves t Allocates where
  refl := .refl
  trans h h' := h.trans h'
  expr e := (expr_framed t e).allocates
  unary opcode inner := (unary_framed opcode inner).allocates
  binary op left right := (binary_framed t op left right).allocates
  currentValue binding := (currentValue_framed binding).allocates
  conjunction outer inner := (conjunction_framed outer inner).allocates
  gated condition binding new previous := (gated_framed condition binding new previous).allocates
  declare := declare_allocates t
  store := store_allocates
  connect _ _ _ _ := .same rfl (Int.le_refl _)
  chain _ _ _ := .same rfl (Int.le_refl _)
  ensureOutput index b := .same (b.refs_ensureOutput index) (Int.le_refl _)

theorem declareGlobals_allocates (ds : List Declaration) : Keeps Allocates (declareGlobals ds) := by
  induction ds with
  | nil => exact allocating.pure _
  | cons d ds ih =>
    rw [declareGlobals, Lowering.declareGlobal]
    apply allocating.bind _ fun _ => ih
    apply allocating.bind (allocating.declaredType _ _)
    intro type
    rcases type.defaultText? with _ | default
    · exact allocating.throw _
    · exact fun b => .take (b.refs_declareGlobal d.name.text type default) rfl

theorem parameters_allocates (pin : Nat) (ps : List Parameter) :
    Keeps Allocates (parameters pin ps) := by
  induction ps generalizing pin with
  | nil => exact allocating.pure _
  | cons p ps ih =>
    apply allocating.bind (allocating.declaredType _ _)
    intro type
    apply allocating.bind fun b => .same rfl (Int.le_refl _)
    intro _
    exact allocating.bind (fun b => .same rfl (Int.le_refl _)) fun _ => ih (pin + 1)

theorem method_allocates (t : Builtins) (m : Method) : Keeps Allocates (method t m) := by
  apply allocating.bind (parameters_allocates 0 m.params)
  intro _
  apply allocating.bind ((stmtMoves_allocates t).body none Ref.endpoint m.body)
  exact fun last b => .same rfl (Int.le_refl _)

theorem program_allocates (t : Builtins) (p : Program) : Keeps Allocates (program t p) := by
  apply allocating.bind (declareGlobals_allocates p.globals)
  intro _
  have hrest (u : Unit) (b : Builder) : b.Allocates ((do
      modify fun b => { b with graph := { b.graph with counter := b.next } }
      let g := (← get).graph
      report (.lowered g.nodes.length g.literals.length g.connections.length)
      return g : Lowering Graph).leaves b) :=
    .same rfl (Int.le_refl _)
  cases p.entry? with
  | none => exact hrest ()
  | some m => exact allocating.bind (method_allocates t m) hrest

end Lowering

/-- What lowering does on the way, with whatever it can be given: single steps, the parts of a
program, and nodes and literals under the next id. -/
inductive Piece (t : Builtins) : {α : Type} → Lowering α → Prop where
  | freshRef : Piece t freshRef
  | report (event : Event) : Piece t (report event)
  | bindName (name : String) (binding : Binding) : Piece t (bindName name binding)
  | connect (wire : Wire) (target : Ref) (pin : Nat) : Piece t (connect wire target pin)
  | chain (source target : Ref) : Piece t (chain source target)
  | ensureOutput (index : Nat) : Piece t (ensureOutput index)
  | node (opcode : Opcode) (place : Place) (linked : Ref) :
      Piece t (do
        let ref ← freshRef
        addNode { opcode := opcode, ref := ref, place := place, linked := linked })
  | literal (name : String) (place : Place) (value : Binary32) :
      Piece t (do
        let ref ← freshRef
        addLiteral ⟨ref, name, place, value⟩)
  | currentValue (binding : Binding) : Piece t (currentValue binding)
  | unary (opcode : Opcode) (inner : Wire) : Piece t (unary opcode inner)
  | binary (op : BinaryOp) (left right : Wire) : Piece t (binary t op left right)
  | conjunction (outer : Option Wire) (inner : Wire) : Piece t (conjunction outer inner)
  | gated (condition : Option Wire) (binding : Binding) (new : Wire) (previous : Option Wire) :
      Piece t (gated condition binding new previous)
  | store (name : String) (binding : Binding) (value : Wire) (last : Ref) :
      Piece t (store name binding value last)
  | expr (e : Expr) : Piece t (expr t e)
  | arguments (target : Ref) (pin : Nat) (args : List Expr) : Piece t (arguments t target pin args)
  | declare (d : Declaration) : Piece t (declare t d)
  | assign (target : Name) (op : AssignOp) (value : Expr) (condition : Option Wire) (last : Ref) :
      Piece t (assign t target op value condition last)
  | outputs (index : Nat) (values : List Expr) : Piece t (outputs t index values)
  | stmt (condition : Option Wire) (last : Ref) (s : Stmt) : Piece t (stmt t condition last s)
  | body (condition : Option Wire) (last : Ref) (stmts : List Stmt) :
      Piece t (body t condition last stmts)
  | declareGlobals (ds : List Declaration) : Piece t (declareGlobals ds)
  | parameters (pin : Nat) (ps : List Parameter) : Piece t (parameters pin ps)
  | method (m : Method) : Piece t (method t m)
  | program (p : Program) : Piece t (program t p)

/-- A piece of lowering takes ids that are given on the way. -/
theorem Piece.allocates {α : Type} {t : Builtins} {x : Lowering α} (h : Piece t x) :
    Keeps Builder.Allocates x := by
  have hparts := stmtMoves_allocates t
  cases h with
  | freshRef => exact fun b => .same rfl b.next_le_reserve
  | report event => exact fun b => .same rfl (Int.le_refl _)
  | bindName name binding => exact fun b => .same rfl (Int.le_refl _)
  | connect wire target pin => exact hparts.connect wire target pin
  | chain source target => exact hparts.chain source target
  | ensureOutput index => exact hparts.ensureOutput index
  | node opcode place linked =>
    exact fun b => .take (b.refs_addNode ⟨opcode, b.next, place, linked⟩) rfl
  | literal name place value => exact fun b => .take (b.refs_addLiteral name place value) rfl
  | currentValue binding => exact hparts.currentValue binding
  | unary opcode inner => exact hparts.unary opcode inner
  | binary op left right => exact hparts.binary op left right
  | conjunction outer inner => exact hparts.conjunction outer inner
  | gated condition binding new previous => exact hparts.gated condition binding new previous
  | store name binding value last => exact hparts.store name binding value last
  | expr e => exact hparts.expr e
  | arguments target pin args => exact fun b => (arguments_framed t target pin args b).allocates
  | declare d => exact hparts.declare d
  | assign target op value condition last => exact hparts.assign target op value condition last
  | outputs index values => exact hparts.outputs index values
  | stmt condition last s => exact hparts.stmt condition last s
  | body condition last stmts => exact hparts.body condition last stmts
  | declareGlobals ds => exact declareGlobals_allocates ds
  | parameters pin ps => exact parameters_allocates pin ps
  | method m => exact method_allocates t m
  | program p => exact program_allocates t p

/-- A builder that pieces of lowering lead to, from one that has done nothing. A piece may fail. -/
inductive Builder.Reached (t : Builtins) (first : Ref) : Builder → Prop where
  | start : Reached t first (Builder.start first)
  | after {α : Type} {x : Lowering α} {b : Builder} (h : Reached t first b) (hx : Piece t x) :
      Reached t first (x.leaves b)

/-- Every piece keeps the ids apart, so they are apart wherever pieces lead to. -/
theorem Builder.Reached.allotted {t : Builtins} {first : Ref} {b : Builder}
    (h : b.Reached t first) : b.Allotted first := by
  induction h with
  | start => exact allotted_start first
  | after h hx ih => exact (hx.allocates _).allotted ih

/-! ## Attempts -/

/-- An expression that was to be lowered. -/
structure Attempt where
  /-- the expression -/
  expr : Expr
  /-- the builder that it found -/
  before : Builder
  /-- the wire, or why there is none -/
  outcome : Except LoweringError Wire
  /-- the builder that it left -/
  after : Builder

namespace Lowering

/-- Lowers an expression. -/
def attempt (t : Builtins) (e : Expr) (b : Builder) : Attempt :=
  match expr t e b with
  | .ok w b' => ⟨e, b, .ok w, b'⟩
  | .error error b' => ⟨e, b, .error error, b'⟩

/-- Lowers expressions one after another. Each goes on from what the one before it left, also if
that failed. -/
def attempts (t : Builtins) : List Expr → Builder → List Attempt
  | [], _ => []
  | e :: es, b => attempt t e b :: attempts t es (attempt t e b).after

/-- The builder behind expressions one after another. -/
def afterAttempts (t : Builtins) (es : List Expr) (b : Builder) : Builder :=
  es.foldl (fun b e => (attempt t e b).after) b

theorem attempt_before (t : Builtins) (e : Expr) (b : Builder) : (attempt t e b).before = b := by
  rw [attempt]
  cases expr t e b <;> rfl

theorem attempt_after (t : Builtins) (e : Expr) (b : Builder) :
    (attempt t e b).after = (expr t e).leaves b := by
  rw [attempt, leaves]
  cases expr t e b <;> rfl

theorem attempt_ok {t : Builtins} {e : Expr} {b : Builder} {w : Wire}
    (h : (attempt t e b).outcome = .ok w) :
    (attempt t e b).expr = e ∧ expr t e b = .ok w (attempt t e b).after := by
  rw [attempt] at h ⊢
  rcases hr : expr t e b with ⟨v, b'⟩ | ⟨error, b'⟩ <;> rw [hr] at h
  · cases h
    exact ⟨rfl, rfl⟩
  · cases h

end Lowering

/-- An attempt added to the graph and changed nothing else; the wire, if there is one, leads to a
part that was added, or else was stored before or is an input. -/
def Attempt.IsFramed (a : Attempt) : Prop :=
  ∃ added, a.before.Extends [] added a.after ∧
    ∀ w, a.outcome = .ok w → a.before.Origin added a.expr w

namespace Builder.Reached

variable {t : Builtins} {first : Ref} {b : Builder}

/-- One expression leads on. -/
theorem attempt (h : b.Reached t first) (e : Expr) : (attempt t e b).after.Reached t first := by
  rw [attempt_after]
  exact h.after (.expr e)

theorem attempt_framed (h : b.Reached t first) (e : Expr) :
    b.Framed [] (Lowering.attempt t e b).after ∧ (Lowering.attempt t e b).IsFramed := by
  obtain ⟨added, hadded⟩ := expr_framed t e b
  rw [← attempt_after] at hadded
  refine ⟨⟨added, hadded⟩, added, ?_, fun w hw => ?_⟩
  · rwa [attempt_before]
  · obtain ⟨he, hrun⟩ := attempt_ok hw
    rw [attempt_before, he]
    exact (ExprLowered.of_run e hrun).origin hadded fun r hr => (h.allotted.given r hr).2

/-- The builders of later attempts have gone on. -/
theorem next_le (h : b.Reached t first) (es : List Expr) :
    ∀ a ∈ attempts t es b, b.next ≤ a.before.next := by
  induction es generalizing b with
  | nil => exact List.forall_mem_nil _
  | cons e es ih =>
    rw [attempts]
    refine List.forall_mem_cons.mpr ⟨?_, fun a ha => ?_⟩
    · rw [attempt_before]
    · exact Int.le_trans (h.attempt_framed e).1.allocates.next (ih (h.attempt e) a ha)

/-- Expressions one after another are attempts that add to the graph, and so are all of them
together. -/
theorem attempts_chain (h : b.Reached t first) (es : List Expr) :
    (afterAttempts t es b).Reached t first ∧ b.Framed [] (afterAttempts t es b) ∧
      (∀ a ∈ attempts t es b, a.IsFramed) ∧
      (attempts t es b).Pairwise fun a a' => a.after.next ≤ a'.before.next := by
  induction es generalizing b with
  | nil => exact ⟨h, .refl b, List.forall_mem_nil _, .nil⟩
  | cons e es ih =>
    obtain ⟨hfirst, hframed⟩ := h.attempt_framed e
    obtain ⟨hreached, hothers, hall, hapart⟩ := ih (h.attempt e)
    rw [attempts]
    refine ⟨hreached, hfirst.trans hothers, ?_, ?_⟩
    · exact List.forall_mem_cons.mpr ⟨hframed, hall⟩
    · exact .cons ((h.attempt e).next_le es) hapart

/-- **Expressions add to the graph and leave all else as it is.** Take a builder that lowering leads
to, and any expressions, lowered on it one after another, some with success and some not. Each of
them, and all of them together, add nodes, literals and data connections at the ends of their lists
and change nothing else but the counter and the reports. A wire leads to a node or literal that its
expression added, unless it was stored under a name before or is an input of the method.

Ids are used once. Each expression takes ids apart from those of the others, also for calls that it
gives up; its connections lead to such ids; and an id that was given before gets no new part, even
if it has none because its call is still open or was given up. -/
theorem attempts_framed (hf : 1 ≤ first) (h : b.Reached t first) (es : List Expr) :
    (∀ a ∈ attempts t es b, a.IsFramed) ∧
      (attempts t es b).Pairwise (fun a a' => a.after.next ≤ a'.before.next) ∧
      b.Framed [] (afterAttempts t es b) ∧ (afterAttempts t es b).Allotted first ∧
      ∀ r ∈ (afterAttempts t es b).graph.refs,
        r ≠ Ref.endpoint ∧ (r < b.next → r ∈ b.graph.refs) := by
  obtain ⟨hreached, hframed, hall, hapart⟩ := h.attempts_chain es
  refine ⟨hall, hapart, hframed, hreached.allotted, fun r hr => ⟨?_, hframed.mem_refs hr⟩⟩
  -- the endpoint is below all ids that are given
  have hpos : 0 < r := Int.lt_of_lt_of_le hf (hreached.allotted.given r hr).1
  exact Int.ne_of_gt (Int.lt_trans (by decide) hpos)

end Builder.Reached

/-- The declarations `float x;` and `bool c`, lowered to a variable and an input. -/
def declared : Builder :=
  (parameters 0 [⟨"bool", ⟨"c", ⟨23, 24⟩⟩⟩]).leaves
    ((declareGlobals [⟨"float", ⟨"x", ⟨6, 7⟩⟩, none, false⟩]).leaves (.start 1))

/-- The expressions `Math.clamp(Math.abs(1), y, 1)`, `Math.sin(x)` and `c`. -/
def halfCall : List Expr :=
  let math : Name := ⟨"Math", ⟨29, 33⟩⟩
  [.call math ⟨"clamp", ⟨34, 39⟩⟩
      [.call math ⟨"abs", ⟨45, 48⟩⟩ [.number 1], .var ⟨"y", ⟨53, 54⟩⟩, .number 1],
    .call math ⟨"sin", ⟨62, 65⟩⟩ [.var ⟨"x", ⟨66, 67⟩⟩], .var ⟨"c", ⟨70, 71⟩⟩]

/-- The first of the expressions `halfCall` fails at its second argument and leaves a connection to
the id 2, which no part has. The others go on from there, and none of them takes that id. -/
theorem attempts_framed_halfCall :
    declared.Reached Builtins.standard 1 ∧
      (attempts Builtins.standard halfCall declared).map (·.outcome.toOption) =
        [none, some (.ofRef .float 5), some (.atPin .bool Ref.endpoint 0)] ∧
      (afterAttempts Builtins.standard halfCall declared).graph.connections.map (·.target) =
        [3, 2, 5] ∧
      (afterAttempts Builtins.standard halfCall declared).graph.refs = [3, 6, 5, 4, 1] ∧
      (∀ a ∈ attempts Builtins.standard halfCall declared, a.IsFramed) ∧
      declared.Framed [] (afterAttempts Builtins.standard halfCall declared) := by
  have hreached : declared.Reached Builtins.standard 1 := by
    rw [declared]
    exact .after (.after .start (.declareGlobals _)) (.parameters 0 _)
  obtain ⟨hall, -, hframed, -⟩ := Builder.Reached.attempts_framed (by decide) hreached halfCall
  exact ⟨hreached, by decide +kernel, by decide +kernel, by decide +kernel, hall, hframed⟩

end ScriptGraph
