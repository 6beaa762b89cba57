import ScriptGraph.Proofs.Lowering.Inputs
import ScriptGraph.Proofs.Tree.Types

/-!
# The types that lowering uses

Lowering decides between operations by the types of wires. These are the types that the text gives
its names and expressions: at every point of the text, the scope of the builder and what is known of
the names agree.

* `Builder.Typed` — a builder and what is known of the names agree;
* `ExprLowered.type_eq` — the wire of an expression has the type of the expression;
* `ExprLowered.made_eq`, `StmtLowered.made_eq` — the nodes perform the operations that the text asks
  for, and the agreement is kept.
-/

namespace ScriptGraph

open Lowering Effect

/-- The operations of the nodes of a graph. -/
def Graph.opcodes (g : Graph) : List (Option Opcode) :=
  g.nodes.map fun n => some n.opcode

/-- The type of what a name stands for. -/
def Binding.type : Binding → ValueType
  | .wire w => w.type
  | .globalVar type _ => type
  | .parameter type _ => type

namespace Builder

theorem type_reading (b : Builder) (binding : Binding) :
    (b.reading binding).type = binding.type := by
  cases binding <;> rfl

/-- The names stand for what is known of them, with the types that are known. -/
def Typed (b : Builder) (kinds : Kinds) : Prop :=
  ∀ name, (b.scope.get? name).map (fun binding => (binding.standing, binding.type)) =
    (kinds name).map fun k => (k.standing, k.type)

namespace Typed

variable {b b' : Builder} {kinds : Kinds} {name : String}

theorem of_scope_eq (h : b.Typed kinds) (hs : b'.scope = b.scope) : b'.Typed kinds := by
  rw [Typed, hs]
  exact h

theorem bound (h : b.Typed kinds) {binding : Binding} (hb : b.scope.get? name = some binding) :
    ∃ k, kinds name = some k ∧ k.standing = binding.standing ∧ k.type = binding.type := by
  have hn := h name
  rw [hb, Option.map_some] at hn
  obtain ⟨k, hk, he⟩ := Option.map_eq_some_iff.mp hn.symm
  exact ⟨k, hk, congrArg Prod.fst he, congrArg Prod.snd he⟩

theorem unbound (h : b.Typed kinds) (hb : b.scope.get? name = none) : kinds name = none := by
  have hn := h name
  rw [hb, Option.map_none] at hn
  exact Option.map_eq_none_iff.mp hn.symm

/-- A name is bound to something of a known kind. -/
theorem bind (h : b.Typed kinds) {binding : Binding} {k : Kind}
    (hs : b'.scope = b.scope.insert name binding) (hk : k.standing = binding.standing)
    (ht : k.type = binding.type) : b'.Typed (kinds.set name (some k)) := by
  intro other
  rw [hs, Kinds.set]
  split
  · next ho => rw [ho, Dictionary.get?_insert_self, Option.map_some, Option.map_some, hk, ht]
  · next ho => rw [Dictionary.get?_insert_of_ne ho, h other]

/-- A value is stored; a global variable keeps its type. -/
theorem store (h : b.Typed kinds) {binding : Binding} (hb : b.scope.get? name = some binding)
    {k : Kind} (hk : kinds name = some k) (value : Wire) (last : Ref) :
    (b.afterStore name value last binding).Typed
      (kinds.set name (some (k.assign value.type))) := by
  obtain ⟨k', hk', hs, ht⟩ := h.bound hb
  rw [hk] at hk'
  cases hk'
  -- every name that is no global variable is bound to the value
  have rebind {b' : Builder} (hv : k.standing = .value)
      (hb' : b'.scope = b.scope.insert name (.wire value)) :
      b'.Typed (kinds.set name (some (k.assign value.type))) := by
    rw [Kind.assign_value hv]
    exact h.bind hb' hv rfl
  cases binding with
  | globalVar type ref =>
    intro other
    rw [Kind.assign_variable hs, Kinds.set]
    split
    · next ho => rw [ho, ← hk]; exact h name
    · exact h other
  | wire w => exact rebind hs rfl
  | parameter type pin => exact rebind hs rfl

end Typed

end Builder

/-! ## Types of wires -/

section

variable {t : Builtins} {kinds : Kinds}

/-- The wire of an expression has the type of the expression. -/
theorem ExprLowered.type_eq {e : Expr} {b b' : Builder} {w : Wire} (h : ExprLowered t e b w b')
    (hc : b.Typed kinds) : w.type = e.type kinds := by
  cases h with
  | number value b => rfl
  | bound hb =>
    obtain ⟨k, hk, -, ht⟩ := hc.bound hb
    rw [b.type_reading, Expr.type, hk, ← ht, Option.elim_some]
  | constant hb ho =>
    rw [Expr.type, hc.unbound hb]
    rfl
  | neg h => rfl
  | not h => rfl
  | binary hl hr ho =>
    rw [Expr.type, ← hl.type_eq hc, ← hr.type_eq (hc.of_scope_eq hl.scope_eq)]
    rfl
  | component hb hp =>
    obtain ⟨k, hk, -⟩ := hc.bound hb
    rw [Expr.type, hk]
    rfl
  | function hb ho ha =>
    rw [Expr.type, hc.unbound hb]
    rfl
  | construct ho ha =>
    rw [Expr.type, ho]
    rfl

/-! ## Operations of nodes -/

namespace Builder

theorem opcodes_emit (b : Builder) (opcode : Opcode) (place : Place) (linked : Ref)
    (inputs : List Wire) :
    (b.emit opcode place linked inputs).graph.opcodes = b.graph.opcodes ++ [some opcode] :=
  List.map_append

theorem opcodes_addNode (b : Builder) (n : Node) :
    (b.addNode n).graph.opcodes = b.graph.opcodes ++ [some n.opcode] :=
  List.map_append

theorem opcodes_afterReading (b : Builder) {binding : Binding} {k : Kind}
    (hk : k.standing = binding.standing) (name : String) :
    (b.afterReading binding).graph.opcodes = b.graph.opcodes ++ made (k.reading name) := by
  rw [Kind.reading, hk]
  cases binding with
  | globalVar type ref => exact b.opcodes_emit _ _ _ _
  | wire w => exact (List.append_nil _).symm
  | parameter type pin => exact (List.append_nil _).symm

end Builder

mutual

/-- The nodes of an expression perform the operations that the text asks for. -/
theorem ExprLowered.made_eq {e : Expr} {b b' : Builder} {w : Wire} (h : ExprLowered t e b w b')
    (hc : b.Typed kinds) :
    b'.graph.opcodes = b.graph.opcodes ++ made (e.effects t kinds) := by
  cases h with
  | number value b => exact (List.append_nil _).symm
  | @bound name _ _ hb =>
    obtain ⟨k, hk, hs, -⟩ := hc.bound hb
    rw [Expr.effects, hk]
    exact b.opcodes_afterReading hs name.text
  | constant hb ho =>
    rw [Expr.effects, hc.unbound hb, ho]
    exact b.opcodes_emit _ _ _ _
  | neg h =>
    rw [Expr.effects, made_append, ← List.append_assoc, ← h.made_eq hc]
    exact Builder.opcodes_emit _ _ _ _ _
  | not h =>
    rw [Expr.effects, made_append, ← List.append_assoc, ← h.made_eq hc]
    exact Builder.opcodes_emit _ _ _ _ _
  | binary hl hr ho =>
    have hc₁ := hc.of_scope_eq hl.scope_eq
    rw [hl.type_eq hc, hr.type_eq hc₁] at ho
    rw [Expr.effects, made_append, made_append, ← List.append_assoc, ← List.append_assoc,
      ← hl.made_eq hc, ← hr.made_eq hc₁, ho]
    exact Builder.opcodes_emit _ _ _ _ _
  | @component receiver member args _ binding pin hb hp =>
    obtain ⟨k, hk, hs, ht⟩ := hc.bound hb
    rw [Expr.effects, hk]
    dsimp only
    rw [made_append, ← List.append_assoc, ← b.opcodes_afterReading hs, ht, ← b.type_reading]
    exact Builder.opcodes_emit _ _ _ _ _
  | @function receiver member args _ b₁ opcode ws hb ho ha =>
    have hargs : b₁.graph.opcodes = b.graph.opcodes ++ made (Expr.argsEffects t kinds args) :=
      ha.made_eq hc
    rw [Expr.effects, hc.unbound hb, ho]
    dsimp only
    rw [made_append, ← List.append_assoc, ← hargs]
    exact Builder.opcodes_addNode _ _
  | @construct type args _ b₁ opcode valueType ws ho ha =>
    have hargs : b₁.graph.opcodes = b.graph.opcodes ++ made (Expr.argsEffects t kinds args) :=
      ha.made_eq hc
    rw [Expr.effects, ho, made_append, ← List.append_assoc, ← hargs]
    exact Builder.opcodes_addNode _ _

/-- So do the nodes of arguments. -/
theorem ArgsLowered.made_eq {target : Ref} {pin : Nat} {args : List Expr} {b b' : Builder}
    {ws : List Wire} (h : ArgsLowered t target pin args b ws b') (hc : b.Typed kinds) :
    b'.graph.opcodes = b.graph.opcodes ++ made (Expr.argsEffects t kinds args) := by
  cases h with
  | nil => exact (List.append_nil _).symm
  | cons h hs =>
    rw [Expr.argsEffects, made_append, ← List.append_assoc, ← h.made_eq hc]
    exact hs.made_eq (hc.of_scope_eq h.scope_eq)

end

/-! ### Statements -/

/-- The right-hand side of an assignment, to a name of some kind. -/
theorem AssignedLowered.made_eq {binding : Binding} {op : AssignOp} {e : Expr} {b b' : Builder}
    {new : Wire} {previous : Option Wire}
    (h : AssignedLowered t binding op e b new previous b') (hc : b.Typed kinds) {k : Kind}
    (hs : k.standing = binding.standing) (ht : k.type = binding.type) (target : String) :
    b'.graph.opcodes = b.graph.opcodes ++
        made (match op.binaryOp? with
          | none => e.effects t kinds
          | some bop => k.reading target ++ e.effects t kinds ++
              [.make (t.operator? bop.symbol (isVectorOp k.type (e.type kinds)))]) ∧
      new.type = op.type k.type (e.type kinds) ∧
      previous.isSome = op.binaryOp?.isSome := by
  cases h with
  | plain hop he =>
    rw [AssignOp.type, hop]
    exact ⟨he.made_eq hc, he.type_eq hc, rfl⟩
  | compound hop he ho =>
    have hc₁ := hc.of_scope_eq (b.scope_afterReading binding)
    rw [b.type_reading, ← ht, he.type_eq hc₁] at ho ⊢
    refine ⟨?_, by rw [AssignOp.type, hop]; rfl, by rw [hop]; rfl⟩
    rw [hop]
    dsimp only
    rw [made_append, made_append, ← List.append_assoc, ← List.append_assoc,
      ← b.opcodes_afterReading hs, ← he.made_eq hc₁, ho]
    exact Builder.opcodes_emit _ _ _ _ _

namespace Builder

theorem opcodes_afterGating (b : Builder) {binding : Binding} {k : Kind}
    (hs : k.standing = binding.standing) (new : Wire) (previous condition : Option Wire)
    (target : String) :
    (b.afterGating binding new previous condition).graph.opcodes = b.graph.opcodes ++
      made ((if condition.isSome && previous.isNone then k.reading target else []) ++
        Stmt.choosing condition.isSome) := by
  rcases condition with _ | condition
  · exact (List.append_nil _).symm
  · rcases previous with _ | previous
    · rw [made_append, ← List.append_assoc]
      refine Eq.trans (opcodes_emit _ _ _ _ _) (congrArg (· ++ _) ?_)
      exact b.opcodes_afterReading hs target
    · exact b.opcodes_emit _ _ _ _

theorem opcodes_afterStore (b : Builder) {binding : Binding} {k : Kind}
    (hs : k.standing = binding.standing) (name : String) (value : Wire) (last : Ref) :
    (b.afterStore name value last binding).graph.opcodes =
      b.graph.opcodes ++ made k.storing := by
  rw [Kind.storing, hs]
  cases binding with
  | globalVar type ref => exact b.opcodes_emit _ _ ref [value]
  | wire w => exact (List.append_nil _).symm
  | parameter type pin => exact (List.append_nil _).symm

theorem opcodes_afterConjunction (b : Builder) (outer : Option Wire) (inner : Wire) :
    (b.afterConjunction outer inner).graph.opcodes =
      b.graph.opcodes ++ made (Stmt.joining outer.isSome) := by
  cases outer with
  | none => exact (List.append_nil _).symm
  | some outer => exact b.opcodes_emit _ _ _ _

theorem type_gatedWire (b : Builder) (binding : Binding) (new : Wire)
    (previous condition : Option Wire) :
    (b.gatedWire binding new previous condition).type = new.type := by
  cases condition <;> rfl

end Builder

theorem OutputsLowered.made_eq {index : Nat} {values : List Expr} {b b' : Builder}
    (h : OutputsLowered t index values b b') (hc : b.Typed kinds) :
    b'.graph.opcodes = b.graph.opcodes ++ made (Expr.argsEffects t kinds values) := by
  induction h with
  | nil index b => exact (List.append_nil _).symm
  | @cons index value values b b₁ b₂ w h hs ih =>
    rw [Expr.argsEffects, made_append, ← List.append_assoc, ← h.made_eq hc,
      ih (hc.of_scope_eq h.scope_eq)]
    rw [Graph.opcodes, Builder.connect, Builder.ensureOutput_nodes]
    rfl

mutual

/-- The nodes of a statement perform the operations that the text asks for, and behind it the names
stand for what is known of them there. -/
theorem StmtLowered.made_eq {condition : Option Wire} {last last' : Ref} {s : Stmt}
    {b b' : Builder} (h : StmtLowered t condition last s b last' b') {kinds : Kinds}
    (hc : b.Typed kinds) :
    b'.graph.opcodes = b.graph.opcodes ++ made (s.effects t condition.isSome kinds) ∧
      b'.Typed (s.retype kinds) := by
  cases h with
  | @declarePublic _ _ d _ _ type hp hi ht =>
    refine ⟨?_, ?_⟩
    · rw [Stmt.effects, hi]
      exact (List.append_nil _).symm
    · refine hc.bind rfl (d.standing_kind kinds) ?_
      rw [Declaration.kind, hi]
      exact Kind.type_ofDeclared ht
  | @declare _ _ d _ init _ _ w hp hi he =>
    refine ⟨?_, ?_⟩
    · rw [Stmt.effects, hi]
      exact he.made_eq hc
    · refine (hc.of_scope_eq he.scope_eq).bind rfl (d.standing_kind kinds) ?_
      rw [Declaration.kind, hi]
      exact (he.type_eq hc).symm
  | @assign _ _ target op value span _ b₁ binding new previous hb ha =>
    obtain ⟨k, hk, hs, ht⟩ := hc.bound hb
    obtain ⟨hmade, htype, hsome⟩ := ha.made_eq hc hs ht target.text
    have hscope := (b₁.scope_afterGating binding new previous condition).trans ha.scope_eq
    refine ⟨?_, ?_⟩
    · rw [Builder.opcodes_afterStore _ hs, b₁.opcodes_afterGating hs _ _ _ target.text, hmade,
        Stmt.effects, hk, Option.elim_some]
      rw [List.append_assoc, List.append_assoc, ← made_append, ← made_append]
      rcases hop : op.binaryOp? with _ | bop <;> rcases previous with _ | previous <;>
        simp only [hop, Option.isSome_none, Option.isSome_some, reduceCtorEq] at hsome
      · simp [Stmt.assignEffects]
      · simp [Stmt.assignEffects]
    · have hstore := (hc.of_scope_eq hscope).store (by rw [hscope]; exact hb) hk
        (b₁.gatedWire binding new previous condition) last
      rw [Builder.type_gatedWire, htype] at hstore
      rw [Stmt.retype, Stmt.assigned, hk]
      exact hstore
  | @branch _ _ _ test thenBody _ _ b₁ _ w he ht =>
    have hc₁ := hc.of_scope_eq ((b₁.scope_afterConjunction condition w).trans he.scope_eq)
    obtain ⟨hm₂, hc₂⟩ := ht.made_eq hc₁
    rw [b₁.opcodes_afterConjunction, he.made_eq hc] at hm₂
    rw [Stmt.effects, made_append, made_append, ← List.append_assoc, ← List.append_assoc]
    exact ⟨hm₂, hc₂⟩
  | @branchElse _ _ _ _ test thenBody elseBody _ _ b₁ b₂ b₃ _ w he ht hnot hf =>
    have hc₁ := hc.of_scope_eq ((b₁.scope_afterConjunction condition w).trans he.scope_eq)
    obtain ⟨hm₂, hc₂⟩ := ht.made_eq hc₁
    have hscope₃ : b₃.scope = b₂.scope := by rw [hnot]; rfl
    have hmade₃ : b₃.graph.opcodes = b₂.graph.opcodes ++ made [.make (some Opcode.not)] := by
      rw [hnot]
      exact b₂.opcodes_emit _ _ _ _
    have hc₃ := hc₂.of_scope_eq
      ((b₃.scope_afterConjunction condition (.ofRef .bool b₂.next)).trans hscope₃)
    obtain ⟨hm₄, hc₄⟩ := hf.made_eq hc₃
    rw [b₁.opcodes_afterConjunction, he.made_eq hc] at hm₂
    rw [b₃.opcodes_afterConjunction, hmade₃, hm₂] at hm₄
    simp only [Stmt.effects, made_append, ← List.append_assoc]
    exact ⟨hm₄, hc₄⟩
  | ret h => exact ⟨h.made_eq hc, hc.of_scope_eq h.scope_eq⟩
  | call h => exact ⟨h.made_eq hc, hc.of_scope_eq h.scope_eq⟩

/-- So do the nodes of statements one after another. -/
theorem BodyLowered.made_eq {condition : Option Wire} {last last' : Ref} {body : List Stmt}
    {b b' : Builder} (h : BodyLowered t condition last body b last' b') {kinds : Kinds}
    (hc : b.Typed kinds) :
    b'.graph.opcodes = b.graph.opcodes ++ made (Stmt.bodyEffects t condition.isSome kinds body) ∧
      b'.Typed (Stmt.bodyRetype kinds body) := by
  cases h with
  | nil => exact ⟨(List.append_nil _).symm, hc⟩
  | cons h hr hs =>
    obtain ⟨hm₁, hc₁⟩ := h.made_eq hc
    obtain ⟨hm₂, hc₂⟩ := hs.made_eq hc₁
    rw [Stmt.bodyEffects, made_append, ← List.append_assoc, ← hm₁]
    exact ⟨hm₂, hc₂⟩

end

end

/-! ### Declarations -/

/-- Declared variables have their declared types. -/
theorem GlobalsLowered.typed {ds : List Declaration} {b b' : Builder} (h : GlobalsLowered ds b b')
    {kinds : Kinds} (hc : b.Typed kinds) (ha : kinds.Agree) :
    b'.Typed (kinds.declareAll .variable (ds.map fun d => (d.name.text, d.type))) ∧
      (kinds.declareAll .variable (ds.map fun d => (d.name.text, d.type))).Agree := by
  induction h generalizing kinds with
  | nil b => exact ⟨hc, ha⟩
  | cons ht hd hs ih =>
    refine ih (hc.bind rfl rfl (Kind.type_ofDeclared ht)) (ha.set _ fun k hk => ?_)
    cases hk
    exact Kind.agrees_ofDeclared ht

/-- So have parameters. -/
theorem ParamsLowered.typed {pin : Nat} {ps : List Parameter} {b b' : Builder}
    (h : ParamsLowered pin ps b b') {kinds : Kinds} (hc : b.Typed kinds) (ha : kinds.Agree) :
    b'.Typed (kinds.declareAll .value (ps.map fun q => (q.name.text, q.type))) ∧
      (kinds.declareAll .value (ps.map fun q => (q.name.text, q.type))).Agree := by
  induction h generalizing kinds with
  | nil pin b => exact ⟨hc, ha⟩
  | cons ht hs ih =>
    refine ih (hc.bind rfl rfl (Kind.type_ofDeclared ht)) (ha.set _ fun k hk => ?_)
    cases hk
    exact Kind.agrees_ofDeclared ht

/-- At the beginning of the entry method, all names have their declared types. -/
theorem Program.typed_kinds {p : Program} {m : Method} {first : Ref} {b₁ b₂ : Builder}
    (hg : GlobalsLowered p.globals (Builder.start first) b₁) (hp : ParamsLowered 0 m.params b₁ b₂) :
    b₂.Typed (p.kinds m) ∧ (p.kinds m).Agree := by
  have hstart : (Builder.start first).Typed fun _ => none := fun _ => rfl
  obtain ⟨hc₁, ha₁⟩ := hg.typed hstart nofun
  exact hp.typed hc₁ ha₁

end ScriptGraph
