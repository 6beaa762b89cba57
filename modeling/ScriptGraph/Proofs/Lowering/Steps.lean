import Mathlib.Logic.Relation
import ScriptGraph.Proofs.Lowering.Derivation

/-!
# Lowering step by step

A derivation follows the tree; here it is cut into the single steps that it takes, so that an
invariant of lowering needs one case for each kind of step and no induction on trees:

* `Site` — a builder with its *open calls*, whose ids are given and whose nodes are still to come;
* `Builder.Yields` — a wire leads to a part of the graph that has a value;
* `ExprStep` — the steps of expressions, `Step` — those of statements too;
* `ExprLowered.steps`, `StmtLowered.steps`, `ProgramLowered.steps` — a derivation is a run of steps,
  and the wires it deals in are yielded at every point.
-/

namespace ScriptGraph

open Lowering Relation

/-! ## Wires that have a value -/

/-- Does a node write to a variable of the graph? A node that was made for a call belongs to no
variable, whatever opcode the table of builtins gives it. -/
def Node.Stores (n : Node) : Prop :=
  n.opcode = Opcode.writeGlobal ∧ n.linked ≠ Ref.unlinked

namespace Builder

/-- An output is an input of the method, a literal or an output of a node that is no write. -/
def YieldsAt (b : Builder) (ref : Ref) (pin : Nat) : Prop :=
  (ref = Ref.endpoint ∧ pin < b.graph.inputs.length) ∨
    (∃ l ∈ b.graph.literals, l.ref = ref) ∨
    ∃ n ∈ b.graph.nodes, n.ref = ref ∧ ¬n.Stores

/-- A wire leads to such an output. -/
def Yields (b : Builder) (w : Wire) : Prop :=
  b.YieldsAt w.ref w.pin

/-- What a name stands for is in the graph. -/
def YieldsBinding (b : Builder) : Binding → Prop
  | .wire wire => b.Yields wire
  | .parameter _ pin => pin < b.graph.inputs.length
  | .globalVar _ ref => ∃ v ∈ b.graph.globals, v.ref = ref

/-- What the names stand for is in the graph, and no variable has the id of the endpoint. -/
structure Sound (b : Builder) : Prop where
  /-- every name stands for something in the graph -/
  scope : ∀ name binding, b.scope.get? name = some binding → b.YieldsBinding binding
  /-- ids are given from above zero -/
  next_pos : 0 < b.next
  /-- so are those of variables -/
  globals_pos : ∀ v ∈ b.graph.globals, 0 < v.ref

/-- A graph that has grown: nothing that a wire can lead to was lost. -/
structure Le (b b' : Builder) : Prop where
  inputs : b.graph.inputs <+: b'.graph.inputs
  literals : b.graph.literals <+: b'.graph.literals
  nodes : b.graph.nodes <+: b'.graph.nodes
  globals : b.graph.globals <+: b'.graph.globals
  next : b.next ≤ b'.next

theorem Le.refl (b : Builder) : b.Le b :=
  ⟨List.prefix_rfl, List.prefix_rfl, List.prefix_rfl, List.prefix_rfl, Int.le_refl _⟩

theorem Le.trans {b₁ b₂ b₃ : Builder} (h : b₁.Le b₂) (h' : b₂.Le b₃) : b₁.Le b₃ :=
  ⟨h.inputs.trans h'.inputs, h.literals.trans h'.literals, h.nodes.trans h'.nodes,
    h.globals.trans h'.globals, Int.le_trans h.next h'.next⟩

/-- An output that had a value keeps it. -/
theorem YieldsAt.mono {b b' : Builder} {ref : Ref} {pin : Nat} (h : b.YieldsAt ref pin)
    (hle : b.Le b') : b'.YieldsAt ref pin := by
  rcases h with ⟨he, hp⟩ | ⟨l, hl, hr⟩ | ⟨n, hn, hr⟩
  · exact .inl ⟨he, Nat.lt_of_lt_of_le hp hle.inputs.length_le⟩
  · exact .inr (.inl ⟨l, hle.literals.subset hl, hr⟩)
  · exact .inr (.inr ⟨n, hle.nodes.subset hn, hr⟩)

theorem Yields.mono {b b' : Builder} {w : Wire} (h : b.Yields w) (hle : b.Le b') : b'.Yields w :=
  YieldsAt.mono h hle

theorem YieldsBinding.mono {b b' : Builder} {binding : Binding} (h : b.YieldsBinding binding)
    (hle : b.Le b') : b'.YieldsBinding binding := by
  cases binding with
  | wire wire => exact Yields.mono h hle
  | parameter type pin => exact Nat.lt_of_lt_of_le h hle.inputs.length_le
  | globalVar type ref =>
    obtain ⟨v, hv, hr⟩ := h
    exact ⟨v, hle.globals.subset hv, hr⟩

/-- The only wire of a condition that is there. -/
theorem Yields.some {b : Builder} {w : Wire} (h : b.Yields w) : ∀ v ∈ some w, b.Yields v := by
  rintro v ⟨⟩
  exact h

end Builder

/-! ## Steps -/

/-- A builder with its open calls, the innermost first: their ids and the wires carried to them. -/
structure Site where
  /-- the calls whose nodes are still to come -/
  calls : List (Ref × List Wire)
  /-- the builder -/
  builder : Builder

/-- The operations under which lowering adds a node with inputs that it chose: constants, operators,
splitters and the joints of conditions. The nodes of calls are not among them. -/
inductive Emission (t : Builtins) : Opcode → Place → List Wire → Prop where
  | constant {name : String} {opcode : Opcode} (h : t.constant? name = some opcode) :
      Emission t opcode Place.origin []
  | negate (w : Wire) : Emission t Opcode.negate (placeFor w.isPublic) [w]
  | not (w : Wire) : Emission t Opcode.not (placeFor w.isPublic) [w]
  | split (w : Wire) :
      Emission t (if w.type = .vector3 then Opcode.splitVector3 else Opcode.splitVector2)
        (placeFor w.isPublic) [w]
  | operator {op : BinaryOp} {l r : Wire} {opcode : Opcode}
      (h : t.operator? op.symbol (isVectorOp l.type r.type) = some opcode) :
      Emission t opcode (placeFor (l.isPublic || r.isPublic)) [l, r]
  | and (outer inner : Wire) : Emission t Opcode.and Place.origin [outer, inner]
  | select (condition new previous : Wire) :
      Emission t Opcode.select (placeFor new.isPublic) [condition, new, previous]

/-- The operations of calls: functions that the table lists, and the two constructors. -/
inductive CallOpcode (t : Builtins) : Opcode → Prop where
  | function {receiver member : String} {opcode : Opcode}
      (h : t.member? receiver member = some opcode) : CallOpcode t opcode
  | construct {type : String} {opcode : Opcode} {valueType : ValueType}
      (h : constructor? type = some (opcode, valueType)) : CallOpcode t opcode

/-- A step of lowering an expression. -/
inductive ExprStep (t : Builtins) : Site → Site → Prop where
  /-- a report -/
  | note (calls : List (Ref × List Wire)) (b : Builder) (event : Event) :
      ExprStep t ⟨calls, b⟩ ⟨calls, b.note event⟩
  /-- a number -/
  | number (calls : List (Ref × List Wire)) (b : Builder) (value : Binary32) :
      ExprStep t ⟨calls, b⟩ ⟨calls, b.addLiteral "Value" Place.origin value⟩
  /-- a node with all its inputs -/
  | node {calls : List (Ref × List Wire)} {b : Builder} {opcode : Opcode} {place : Place}
      {inputs : List Wire} (he : Emission t opcode place inputs)
      (hw : ∀ w ∈ inputs, b.Yields w) :
      ExprStep t ⟨calls, b⟩ ⟨calls, b.operate opcode place inputs⟩
  /-- a node that reads a variable -/
  | read {calls : List (Ref × List Wire)} {b : Builder} {ref : Ref}
      (hv : ∃ v ∈ b.graph.globals, v.ref = ref) :
      ExprStep t ⟨calls, b⟩ ⟨calls, b.emit Opcode.readGlobal Place.origin ref []⟩
  /-- a call takes its id -/
  | openCall (calls : List (Ref × List Wire)) (b : Builder) :
      ExprStep t ⟨calls, b⟩ ⟨(b.next, []) :: calls, b.reserve⟩
  /-- the innermost call takes an argument -/
  | argument {calls : List (Ref × List Wire)} {b : Builder} {ref : Ref} {ws : List Wire} {w : Wire}
      (hw : b.Yields w) :
      ExprStep t ⟨(ref, ws) :: calls, b⟩
        ⟨(ref, ws ++ [w]) :: calls, b.connect (.data w.ref w.pin ref ws.length)⟩
  /-- the innermost call is complete -/
  | closeCall {calls : List (Ref × List Wire)} {b : Builder} {ref : Ref} {ws : List Wire}
      {opcode : Opcode} (ho : CallOpcode t opcode) :
      ExprStep t ⟨(ref, ws) :: calls, b⟩
        ⟨calls, b.addNode ⟨opcode, ref, placeFor (ws.any (·.isPublic)), Ref.unlinked⟩⟩

/-- A step of lowering a program. Only expressions open calls. -/
inductive Step (t : Builtins) : Site → Site → Prop where
  /-- a step of an expression -/
  | expr {s s' : Site} (h : ExprStep t s s') : Step t s s'
  /-- a public value -/
  | publicValue (b : Builder) (name : String) :
      Step t ⟨[], b⟩ ⟨[], b.addLiteral name Place.publicValue (.ofInt 0)⟩
  /-- a name stands for a wire -/
  | bind {b : Builder} {name : String} {w : Wire} (hw : b.Yields w) :
      Step t ⟨[], b⟩ ⟨[], b.bind name (.wire w)⟩
  /-- a node that writes a variable, behind the chain of execution -/
  | write {b : Builder} {ref last : Ref} {w : Wire} (hv : ∃ v ∈ b.graph.globals, v.ref = ref)
      (hw : b.Yields w) :
      Step t ⟨[], b⟩ ⟨[], (b.emit Opcode.writeGlobal Place.globalWrite ref [w]).connect
        (.execution last b.next)⟩
  /-- a value is carried to an output -/
  | output {b : Builder} {index : Nat} {w : Wire} (hw : b.Yields w)
      (hi : index ≤ b.graph.outputs.length) :
      Step t ⟨[], b⟩ ⟨[], (b.ensureOutput index).connect
        (.data w.ref w.pin Ref.endpoint index)⟩
  /-- the chain of execution is closed -/
  | exit (b : Builder) (last : Ref) :
      Step t ⟨[], b⟩ ⟨[], b.connect (.execution last Ref.endpoint)⟩
  /-- a variable is declared -/
  | globalVar (b : Builder) (name : String) (type : ValueType) (default : String) :
      Step t ⟨[], b⟩ ⟨[], b.declareGlobal name type default⟩
  /-- the method has one more input -/
  | input {b : Builder} (name : String) (type : ValueType) (pin : Nat)
      (hp : pin = b.graph.inputs.length) : Step t ⟨[], b⟩ ⟨[], b.addInput name type pin⟩

/-- A run of steps of an expression. -/
abbrev ExprSteps (t : Builtins) : Site → Site → Prop :=
  ReflTransGen (ExprStep t)

/-- A run of steps. -/
abbrev Steps (t : Builtins) : Site → Site → Prop :=
  ReflTransGen (Step t)

/-! ### What a step keeps -/

namespace Builder

theorem le_note (b : Builder) (event : Event) : b.Le (b.note event) :=
  ⟨List.prefix_rfl, List.prefix_rfl, List.prefix_rfl, List.prefix_rfl, Int.le_refl _⟩

theorem le_reserve (b : Builder) : b.Le b.reserve :=
  ⟨List.prefix_rfl, List.prefix_rfl, List.prefix_rfl, List.prefix_rfl, Int.le_add_one (Int.le_refl _)⟩

theorem le_bind (b : Builder) (name : String) (binding : Binding) : b.Le (b.bind name binding) :=
  ⟨List.prefix_rfl, List.prefix_rfl, List.prefix_rfl, List.prefix_rfl, Int.le_refl _⟩

theorem le_connect (b : Builder) (c : Connection) : b.Le (b.connect c) :=
  ⟨List.prefix_rfl, List.prefix_rfl, List.prefix_rfl, List.prefix_rfl, Int.le_refl _⟩

theorem le_addNode (b : Builder) (n : Node) : b.Le (b.addNode n) :=
  ⟨List.prefix_rfl, List.prefix_rfl, List.prefix_append _ _, List.prefix_rfl, Int.le_refl _⟩

theorem le_addLiteral (b : Builder) (name : String) (place : Place) (value : Binary32) :
    b.Le (b.addLiteral name place value) :=
  ⟨List.prefix_rfl, List.prefix_append _ _, List.prefix_rfl, List.prefix_rfl,
    Int.le_add_one (Int.le_refl _)⟩

theorem le_emit (b : Builder) (opcode : Opcode) (place : Place) (linked : Ref)
    (inputs : List Wire) : b.Le (b.emit opcode place linked inputs) :=
  ⟨List.prefix_rfl, List.prefix_rfl, List.prefix_append _ _, List.prefix_rfl, Int.le_add_one (Int.le_refl _)⟩

theorem le_operate (b : Builder) (opcode : Opcode) (place : Place) (inputs : List Wire) :
    b.Le (b.operate opcode place inputs) :=
  b.le_emit opcode place Ref.unlinked inputs

theorem le_afterReading (b : Builder) (binding : Binding) : b.Le (b.afterReading binding) := by
  cases binding with
  | wire wire => exact .refl b
  | parameter type pin => exact .refl b
  | globalVar type ref => exact b.le_emit _ _ _ _

theorem le_ensureOutput (b : Builder) (index : Nat) : b.Le (b.ensureOutput index) :=
  ⟨by simp, by simp, by simp, by simp, Int.le_refl _⟩

theorem le_declareGlobal (b : Builder) (name : String) (type : ValueType) (default : String) :
    b.Le (b.declareGlobal name type default) :=
  ⟨List.prefix_rfl, List.prefix_rfl, List.prefix_rfl, List.prefix_append _ _,
    Int.le_add_one (Int.le_refl _)⟩

theorem le_addInput (b : Builder) (name : String) (type : ValueType) (pin : Nat) :
    b.Le (b.addInput name type pin) :=
  ⟨List.prefix_append _ _, List.prefix_rfl, List.prefix_rfl, List.prefix_rfl, Int.le_refl _⟩

end Builder

/-- A step of an expression adds to the graph. -/
theorem ExprStep.le {t : Builtins} {s s' : Site} (h : ExprStep t s s') :
    s.builder.Le s'.builder := by
  cases h with
  | note calls b event => exact b.le_note event
  | number calls b value => exact b.le_addLiteral _ _ value
  | node he hw => exact Builder.le_operate _ _ _ _
  | read hv => exact Builder.le_emit _ _ _ _ _
  | openCall calls b => exact b.le_reserve
  | argument hw => exact Builder.le_connect _ _
  | closeCall ho => exact Builder.le_addNode _ _

/-- A step of an expression binds nothing and declares nothing. -/
theorem ExprStep.frame {t : Builtins} {s s' : Site} (h : ExprStep t s s') :
    s'.builder.scope = s.builder.scope ∧ s'.builder.graph.globals = s.builder.graph.globals ∧
      s'.builder.graph.inputs = s.builder.graph.inputs ∧
      s'.builder.graph.outputs = s.builder.graph.outputs := by
  cases h <;> exact ⟨rfl, rfl, rfl, rfl⟩

theorem ExprSteps.le {t : Builtins} {s s' : Site} (h : ExprSteps t s s') :
    s.builder.Le s'.builder := by
  induction h with
  | refl => exact Builder.Le.refl _
  | tail _ h ih => exact ih.trans h.le

theorem ExprSteps.frame {t : Builtins} {s s' : Site} (h : ExprSteps t s s') :
    s'.builder.scope = s.builder.scope ∧ s'.builder.graph.globals = s.builder.graph.globals ∧
      s'.builder.graph.inputs = s.builder.graph.inputs ∧
      s'.builder.graph.outputs = s.builder.graph.outputs := by
  induction h with
  | refl => exact ⟨rfl, rfl, rfl, rfl⟩
  | tail _ h ih =>
    obtain ⟨h₁, h₂, h₃, h₄⟩ := h.frame
    obtain ⟨i₁, i₂, i₃, i₄⟩ := ih
    exact ⟨h₁.trans i₁, h₂.trans i₂, h₃.trans i₃, h₄.trans i₄⟩

/-- The steps of an expression are steps of a program. -/
theorem ExprSteps.steps {t : Builtins} {s s' : Site} (h : ExprSteps t s s') : Steps t s s' :=
  ReflTransGen.mono (fun _ _ => Step.expr) _ _ h

/-- A builder that has grown is sound if it binds and declares nothing new. -/
theorem Builder.Sound.mono {b b' : Builder} (hs : b.Sound) (hle : b.Le b') (hscope : b'.scope = b.scope)
    (hglobals : b'.graph.globals = b.graph.globals) : b'.Sound := by
  refine ⟨fun name binding hb => ?_, Int.lt_of_lt_of_le hs.next_pos hle.next, fun v hv => ?_⟩
  · rw [hscope] at hb
    exact (hs.scope name binding hb).mono hle
  · rw [hglobals] at hv
    exact hs.globals_pos v hv

/-- The endpoint is no id that is still to be given. -/
theorem Builder.Sound.endpoint_lt {b : Builder} (hs : b.Sound) : Ref.endpoint < b.next :=
  Int.lt_trans (by decide) hs.next_pos

/-- What the names stand for stays in the graph while an expression is lowered. -/
theorem Builder.Sound.of_exprSteps {t : Builtins} {s s' : Site} (hs : s.builder.Sound)
    (h : ExprSteps t s s') : s'.builder.Sound := by
  obtain ⟨hscope, hglobals, -, -⟩ := h.frame
  exact hs.mono h.le hscope hglobals

/-! ## Derivations are runs -/

namespace Builder

/-- The node that was just added has a value, unless it is a write. -/
theorem yields_emit (b : Builder) (opcode : Opcode) (place : Place) (linked : Ref)
    (inputs : List Wire) (type : ValueType) (pin : Nat)
    (h : opcode = Opcode.writeGlobal → linked = Ref.unlinked) :
    (b.emit opcode place linked inputs).Yields (.atPin type b.next pin) :=
  .inr (.inr ⟨⟨opcode, b.next, place, linked⟩, by simp [emit], rfl, fun hs => hs.2 (h hs.1)⟩)

theorem yields_operate (b : Builder) (opcode : Opcode) (place : Place) (inputs : List Wire)
    (type : ValueType) (pin : Nat) :
    (b.operate opcode place inputs).Yields (.atPin type b.next pin) :=
  b.yields_emit opcode place Ref.unlinked inputs type pin fun _ => rfl

/-- The node of a call has a value once it is added. -/
theorem yields_addNode (b : Builder) (n : Node) (type : ValueType) (h : n.linked = Ref.unlinked) :
    (b.addNode n).Yields (.ofRef type n.ref) :=
  .inr (.inr ⟨n, by simp [addNode], rfl, fun hs => hs.2 h⟩)

/-- A literal has a value once it is added. -/
theorem yields_addLiteral (b : Builder) (name : String) (place : Place) (value : Binary32)
    {w : Wire} (h : w.ref = b.next) : (b.addLiteral name place value).Yields w :=
  .inr (.inl ⟨⟨b.next, name, place, value⟩, by simp [addLiteral], h.symm⟩)

end Builder

/-- Reading what a name stands for is a run, and yields a wire that has a value. -/
theorem steps_afterReading {t : Builtins} {b : Builder} {binding : Binding}
    (h : b.YieldsBinding binding) (calls : List (Ref × List Wire)) :
    ExprSteps t ⟨calls, b⟩ ⟨calls, b.afterReading binding⟩ ∧
      (b.afterReading binding).Yields (b.reading binding) := by
  cases binding with
  | wire wire => exact ⟨.refl, h⟩
  | parameter type pin => exact ⟨.refl, .inl ⟨rfl, h⟩⟩
  | globalVar type ref =>
    refine ⟨.single (.read h), b.yields_emit _ _ ref [] type 0 ?_⟩
    exact fun ho => absurd ho (by decide)

mutual

/-- Lowering an expression is a run that leaves the open calls as they are, and yields a wire that
has a value. -/
theorem ExprLowered.steps {t : Builtins} {e : Expr} {b b' : Builder} {w : Wire}
    (h : ExprLowered t e b w b') (hs : b.Sound) (calls : List (Ref × List Wire)) :
    ExprSteps t ⟨calls, b⟩ ⟨calls, b'⟩ ∧ b'.Yields w := by
  cases h with
  | number value b =>
    refine ⟨.tail (.single (.number calls b value)) (.note calls _ _), ?_⟩
    exact (b.yields_addLiteral _ _ _ rfl).mono (Builder.le_note _ _)
  | bound hb => exact steps_afterReading (hs.scope _ _ hb) calls
  | constant hb ho =>
    exact ⟨.single (.node (.constant ho) (by simp)), b.yields_operate _ _ _ _ _⟩
  | neg h =>
    obtain ⟨h₁, hw⟩ := h.steps hs calls
    refine ⟨.tail h₁ (.node (.negate _) ?_), Builder.yields_operate _ _ _ _ _ _⟩
    simpa using hw
  | not h =>
    obtain ⟨h₁, hw⟩ := h.steps hs calls
    refine ⟨.tail h₁ (.node (.not _) ?_), Builder.yields_operate _ _ _ _ _ _⟩
    simpa using hw
  | binary hl hr ho =>
    obtain ⟨h₁, hw₁⟩ := hl.steps hs calls
    obtain ⟨h₂, hw₂⟩ := hr.steps (hs.of_exprSteps h₁) calls
    refine ⟨.tail (h₁.trans h₂) (.node (.operator ho) ?_), Builder.yields_operate _ _ _ _ _ _⟩
    simpa using ⟨hw₁.mono h₂.le, hw₂⟩
  | component hb hp =>
    obtain ⟨h₁, hw⟩ := steps_afterReading (t := t) (hs.scope _ _ hb) calls
    refine ⟨.tail h₁ (.node (.split _) ?_), Builder.yields_operate _ _ _ _ _ _⟩
    simpa using hw
  | function hb ho ha =>
    -- the call is opened, takes its arguments and is closed
    have h₀ : ExprSteps t ⟨calls, b⟩ ⟨(b.next, []) :: calls, b.reserve⟩ := .single (.openCall ..)
    have h₁ := ha.steps (hs.of_exprSteps h₀) [] rfl calls
    exact ⟨.tail (h₀.trans h₁) (.closeCall (.function ho)), Builder.yields_addNode _ _ _ rfl⟩
  | construct ho ha =>
    have h₀ : ExprSteps t ⟨calls, b⟩ ⟨(b.next, []) :: calls, b.reserve⟩ := .single (.openCall ..)
    have h₁ := ha.steps (hs.of_exprSteps h₀) [] rfl calls
    exact ⟨.tail (h₀.trans h₁) (.closeCall (.construct ho)), Builder.yields_addNode _ _ _ rfl⟩

/-- Lowering arguments is a run in which the innermost open call takes them. -/
theorem ArgsLowered.steps {t : Builtins} {target : Ref} {pin : Nat} {args : List Expr}
    {b b' : Builder} {ws : List Wire} (h : ArgsLowered t target pin args b ws b') (hs : b.Sound)
    (taken : List Wire) (hp : taken.length = pin) (calls : List (Ref × List Wire)) :
    ExprSteps t ⟨(target, taken) :: calls, b⟩ ⟨(target, taken ++ ws) :: calls, b'⟩ := by
  cases h with
  | nil => simpa using ReflTransGen.refl
  | @cons _ _ _ _ _ b₁ _ w ws h hs' =>
    obtain ⟨h₁, hw⟩ := h.steps hs ((target, taken) :: calls)
    -- the next input of the call is as many wires away as it has taken
    subst hp
    have h₂ := ReflTransGen.tail h₁ (ExprStep.argument hw)
    have h₃ := hs'.steps (hs.of_exprSteps h₂) (taken ++ [w]) List.length_append calls
    rw [List.append_assoc] at h₃
    exact h₂.trans h₃

end

mutual

/-- Lowering an expression adds to the graph, whatever the builder was. -/
theorem ExprLowered.le {t : Builtins} {e : Expr} {b b' : Builder} {w : Wire}
    (h : ExprLowered t e b w b') : b.Le b' := by
  cases h with
  | number value b => exact (b.le_addLiteral _ _ _).trans (Builder.le_note _ _)
  | bound hb => exact b.le_afterReading _
  | constant hb ho => exact b.le_operate _ _ _
  | neg h => exact h.le.trans (Builder.le_operate _ _ _ _)
  | not h => exact h.le.trans (Builder.le_operate _ _ _ _)
  | binary hl hr ho => exact (hl.le.trans hr.le).trans (Builder.le_operate _ _ _ _)
  | component hb hp => exact (b.le_afterReading _).trans (Builder.le_operate _ _ _ _)
  | function hb ho ha => exact (b.le_reserve.trans ha.le).trans (Builder.le_addNode _ _)
  | construct ho ha => exact (b.le_reserve.trans ha.le).trans (Builder.le_addNode _ _)

theorem ArgsLowered.le {t : Builtins} {target : Ref} {pin : Nat} {args : List Expr}
    {b b' : Builder} {ws : List Wire} (h : ArgsLowered t target pin args b ws b') : b.Le b' := by
  cases h with
  | nil => exact .refl b
  | cons h hs => exact (h.le.trans (Builder.le_connect _ _)).trans hs.le

end

/-! ### Statements -/

/-- A step adds to the graph. -/
theorem Step.le {t : Builtins} {s s' : Site} (h : Step t s s') : s.builder.Le s'.builder := by
  cases h with
  | expr h => exact h.le
  | publicValue b name => exact b.le_addLiteral _ _ _
  | bind hw => exact Builder.le_bind _ _ _
  | write hv hw => exact (Builder.le_emit _ _ _ _ _).trans (Builder.le_connect _ _)
  | output hw hi => exact (Builder.le_ensureOutput _ _).trans (Builder.le_connect _ _)
  | exit b last => exact b.le_connect _
  | globalVar b name type default => exact b.le_declareGlobal _ _ _
  | input name type pin hp => exact Builder.le_addInput _ _ _ _

theorem Steps.le {t : Builtins} {s s' : Site} (h : Steps t s s') : s.builder.Le s'.builder := by
  induction h with
  | refl => exact Builder.Le.refl _
  | tail _ h ih => exact ih.trans h.le

namespace Builder

/-- A new binding of a name keeps a builder sound if it stands for something in the graph. -/
theorem Sound.bind {b : Builder} (hs : b.Sound) {name : String} {binding : Binding}
    (hb : b.YieldsBinding binding) : (b.bind name binding).Sound := by
  refine ⟨fun other found hf => ?_, hs.next_pos, hs.globals_pos⟩
  by_cases ho : other = name
  · subst ho
    rw [Builder.bind, Dictionary.get?_insert_self] at hf
    obtain rfl := Option.some.inj hf
    exact hb.mono (b.le_bind _ _)
  · rw [Builder.bind, Dictionary.get?_insert_of_ne ho] at hf
    exact (hs.scope other found hf).mono (b.le_bind _ _)

end Builder

/-- A step keeps a builder sound. -/
theorem Step.sound {t : Builtins} {s s' : Site} (h : Step t s s') (hs : s.builder.Sound) :
    s'.builder.Sound := by
  have hle := h.le
  cases h with
  | expr h => exact hs.of_exprSteps (.single h)
  | publicValue b name => exact hs.mono hle rfl rfl
  | bind hw => exact hs.bind hw
  | write hv hw => exact hs.mono hle rfl rfl
  | @output b index w hw hi =>
    exact hs.mono hle rfl (b.ensureOutput_globals index)
  | exit b last => exact hs.mono hle rfl rfl
  | globalVar b name type default =>
    -- declared first, bound second: the record is there when the name is looked up
    let grown : Builder :=
      { b.declareGlobal name type default with scope := b.scope }
    have hgrown : grown.Sound := by
      refine ⟨fun other found hf => (hs.scope other found hf).mono ?_, ?_, fun v hv => ?_⟩
      · exact ⟨hle.inputs, hle.literals, hle.nodes, hle.globals, hle.next⟩
      · exact Int.lt_of_lt_of_le hs.next_pos hle.next
      · rcases List.mem_append.mp hv with hv | hv
        · exact hs.globals_pos v hv
        · rw [List.mem_singleton.mp hv]
          exact hs.next_pos
    exact hgrown.bind ⟨⟨name, b.next, type.recordName, default⟩, by simp [grown,
      Builder.declareGlobal], rfl⟩
  | @input b name type pin hp =>
    let grown : Builder := { b.addInput name type pin with scope := b.scope }
    have hgrown : grown.Sound := hs.mono
      ⟨hle.inputs, hle.literals, hle.nodes, hle.globals, hle.next⟩ rfl rfl
    refine hgrown.bind (?_ : pin < grown.graph.inputs.length)
    simp [grown, Builder.addInput, hp]

theorem Steps.sound {t : Builtins} {s s' : Site} (h : Steps t s s') (hs : s.builder.Sound) :
    s'.builder.Sound := by
  induction h with
  | refl => exact hs
  | tail _ h ih => exact h.sound ih

/-- Joining a condition with an outer one is a run. -/
theorem steps_afterConjunction {t : Builtins} {b : Builder} {outer : Option Wire} {inner : Wire}
    (ho : ∀ w ∈ outer, b.Yields w) (hi : b.Yields inner) :
    ExprSteps t ⟨[], b⟩ ⟨[], b.afterConjunction outer inner⟩ ∧
      (b.afterConjunction outer inner).Yields (b.conjoined outer inner) := by
  cases outer with
  | none => exact ⟨.refl, hi⟩
  | some outer =>
    refine ⟨.single (.node (.and _ _) ?_), b.yields_operate _ _ _ _ _⟩
    simpa using ⟨ho outer rfl, hi⟩

/-- Entering the first body of a choice is a run: the test, then its conjunction with the outer
condition. -/
theorem ExprLowered.steps_then {t : Builtins} {test : Expr} {b b₁ : Builder} {w : Wire}
    (h : ExprLowered t test b w b₁) (hs : b.Sound) {outer : Option Wire}
    (ho : ∀ v ∈ outer, b.Yields v) :
    ExprSteps t ⟨[], b⟩ ⟨[], b₁.afterConjunction outer w⟩ ∧
      (b₁.afterConjunction outer w).Yields (b₁.conjoined outer w) ∧
      (b₁.afterConjunction outer w).Yields w := by
  obtain ⟨h₁, hw⟩ := h.steps hs []
  obtain ⟨h₂, hj⟩ := steps_afterConjunction (t := t) (fun v hv => (ho v hv).mono h₁.le) hw
  exact ⟨h₁.trans h₂, hj, hw.mono h₂.le⟩

/-- Entering the second body is a run: the negated test, then the conjunction. -/
theorem steps_else {t : Builtins} {b b₁ : Builder} {w : Wire} {outer : Option Wire}
    (hn : b₁ = b.operate Opcode.not (placeFor w.isPublic) [w]) (hw : b.Yields w)
    (ho : ∀ v ∈ outer, b.Yields v) :
    ExprSteps t ⟨[], b⟩ ⟨[], b₁.afterConjunction outer (.ofRef .bool b.next)⟩ ∧
      (b₁.afterConjunction outer (.ofRef .bool b.next)).Yields
        (b₁.conjoined outer (.ofRef .bool b.next)) := by
  subst hn
  have h₁ : ExprSteps t ⟨[], b⟩ ⟨[], b.operate Opcode.not (placeFor w.isPublic) [w]⟩ :=
    .single (.node (.not w) (by simpa using hw))
  obtain ⟨h₂, hj⟩ := steps_afterConjunction (t := t) (fun v hv => (ho v hv).mono h₁.le)
    (b.yields_operate _ _ _ _ _)
  exact ⟨h₁.trans h₂, hj⟩

/-- The right-hand side of an assignment is a run; the new value and the value read for it are
there afterwards. -/
theorem AssignedLowered.steps {t : Builtins} {binding : Binding} {op : AssignOp} {e : Expr}
    {b b' : Builder} {new : Wire} {previous : Option Wire}
    (h : AssignedLowered t binding op e b new previous b') (hs : b.Sound)
    (hb : b.YieldsBinding binding) :
    ExprSteps t ⟨[], b⟩ ⟨[], b'⟩ ∧ b'.Yields new ∧ ∀ w ∈ previous, b'.Yields w := by
  cases h with
  | plain hop he =>
    obtain ⟨h₁, hw⟩ := he.steps hs []
    exact ⟨h₁, hw, by simp⟩
  | compound hop he ho =>
    obtain ⟨h₁, hw₁⟩ := steps_afterReading (t := t) hb []
    obtain ⟨h₂, hw₂⟩ := he.steps (hs.of_exprSteps h₁) []
    have hw₁ := hw₁.mono h₂.le
    refine ⟨.tail (h₁.trans h₂) (.node (.operator ho) ?_), Builder.yields_operate _ _ _ _ _ _, ?_⟩
    · simpa using ⟨hw₁, hw₂⟩
    · simpa using hw₁.mono (Builder.le_operate _ _ _ _)

/-- Having the previous value of a target at hand is a run. -/
theorem steps_afterPrevious {t : Builtins} {b : Builder} {binding : Binding}
    {previous : Option Wire} (hb : b.YieldsBinding binding) (hp : ∀ w ∈ previous, b.Yields w) :
    ExprSteps t ⟨[], b⟩ ⟨[], b.afterPrevious binding previous⟩ ∧
      (b.afterPrevious binding previous).Yields (b.previousWire binding previous) := by
  cases previous with
  | none => exact steps_afterReading hb []
  | some previous => exact ⟨.refl, hp previous rfl⟩

/-- Gating a value by a condition is a run. -/
theorem steps_afterGating {t : Builtins} {b : Builder} {binding : Binding} {new : Wire}
    {previous condition : Option Wire} (hb : b.YieldsBinding binding) (hn : b.Yields new)
    (hp : ∀ w ∈ previous, b.Yields w) (hc : ∀ w ∈ condition, b.Yields w) :
    ExprSteps t ⟨[], b⟩ ⟨[], b.afterGating binding new previous condition⟩ ∧
      (b.afterGating binding new previous condition).Yields
        (b.gatedWire binding new previous condition) := by
  cases condition with
  | none => exact ⟨.refl, hn⟩
  | some condition =>
    obtain ⟨h₁, hw⟩ := steps_afterPrevious (t := t) hb hp
    refine ⟨.tail h₁ (.node (.select _ _ _) ?_), Builder.yields_operate _ _ _ _ _ _⟩
    simpa using ⟨(hc condition rfl).mono h₁.le, hn.mono h₁.le, hw⟩

/-- Storing a value is a step. -/
theorem step_afterStore {t : Builtins} {b : Builder} {binding : Binding} {name : String}
    {value : Wire} {last : Ref} (hb : b.YieldsBinding binding) (hv : b.Yields value) :
    Step t ⟨[], b⟩ ⟨[], b.afterStore name value last binding⟩ := by
  cases binding with
  | wire wire => exact .bind hv
  | parameter type pin => exact .bind hv
  | globalVar type ref => exact .write hb hv

/-- Carrying values to the outputs of the method is a run. -/
theorem OutputsLowered.steps {t : Builtins} {index : Nat} {values : List Expr} {b b' : Builder}
    (h : OutputsLowered t index values b b') (hs : b.Sound)
    (hi : index ≤ b.graph.outputs.length) : Steps t ⟨[], b⟩ ⟨[], b'⟩ := by
  induction h with
  | nil index b => exact .refl
  | @cons index value values b b₁ b₂ w h hs' ih =>
    obtain ⟨h₁, hw⟩ := h.steps hs []
    have ho : b₁.graph.outputs = b.graph.outputs := h₁.frame.2.2.2
    have hi₁ : index ≤ b₁.graph.outputs.length := ho ▸ hi
    have h₂ : Steps t _ _ := .tail h₁.steps (.output hw hi₁)
    exact h₂.trans (ih (h₂.sound hs) (Builder.lt_ensureOutput_outputs hi₁).1)

mutual

/-- Lowering a statement is a run between sites without open calls. -/
theorem StmtLowered.steps {t : Builtins} {condition : Option Wire} {last last' : Ref} {s : Stmt}
    {b b' : Builder} (h : StmtLowered t condition last s b last' b') (hs : b.Sound)
    (hc : ∀ w ∈ condition, b.Yields w) : Steps t ⟨[], b⟩ ⟨[], b'⟩ := by
  cases h with
  | declarePublic hp hi ht =>
    exact .tail (.single (.publicValue b _)) (.bind (b.yields_addLiteral _ _ _ rfl))
  | declare hp hi he =>
    obtain ⟨h₁, hw⟩ := he.steps hs []
    exact .tail h₁.steps (.bind hw)
  | assign hb ha =>
    have hb₀ := hs.scope _ _ hb
    obtain ⟨h₁, hn, hp⟩ := ha.steps hs hb₀
    have hb₁ := hb₀.mono h₁.le
    obtain ⟨h₂, hk⟩ := steps_afterGating (t := t) hb₁ hn hp fun w hw => (hc w hw).mono h₁.le
    exact .tail (h₁.steps.trans h₂.steps) (step_afterStore (hb₁.mono h₂.le) hk)
  | branch he ht =>
    obtain ⟨h₁, hj, -⟩ := he.steps_then hs hc
    exact h₁.steps.trans (ht.steps (hs.of_exprSteps h₁) hj.some)
  | branchElse he ht hn hf =>
    obtain ⟨h₁, hj, hw⟩ := he.steps_then hs hc
    have h₂ := ht.steps (hs.of_exprSteps h₁) hj.some
    have h₁₂ : Steps t _ _ := h₁.steps.trans h₂
    obtain ⟨h₃, hj'⟩ := steps_else (t := t) hn (hw.mono h₂.le) fun w hw => (hc w hw).mono h₁₂.le
    have h₁₃ : Steps t _ _ := h₁₂.trans h₃.steps
    exact h₁₃.trans (hf.steps (h₁₃.sound hs) hj'.some)
  | ret h => exact .tail (h.steps hs (Nat.zero_le _)) (.exit _ last)
  | call h => exact (h.steps hs []).1.steps

/-- Lowering a body is a run between sites without open calls. -/
theorem BodyLowered.steps {t : Builtins} {condition : Option Wire} {last last' : Ref}
    {body : List Stmt} {b b' : Builder} (h : BodyLowered t condition last body b last' b')
    (hs : b.Sound) (hc : ∀ w ∈ condition, b.Yields w) : Steps t ⟨[], b⟩ ⟨[], b'⟩ := by
  cases h with
  | nil => exact .refl
  | cons h hr hs' =>
    have h₁ := h.steps hs hc
    exact h₁.trans (hs'.steps (h₁.sound hs) fun w hw => (hc w hw).mono h₁.le)

end

/-! ### Programs -/

theorem GlobalsLowered.steps {t : Builtins} {ds : List Declaration} {b b' : Builder}
    (h : GlobalsLowered ds b b') : Steps t ⟨[], b⟩ ⟨[], b'⟩ := by
  induction h with
  | nil b => exact .refl
  | cons ht hd hs ih => exact .head (.globalVar ..) ih

theorem ParamsLowered.steps {t : Builtins} {pin : Nat} {ps : List Parameter} {b b' : Builder}
    (h : ParamsLowered pin ps b b') (hp : pin = b.graph.inputs.length) :
    Steps t ⟨[], b⟩ ⟨[], b'⟩ := by
  induction h with
  | nil pin b => exact .refl
  | cons ht hs ih =>
    refine .head (.input _ _ _ hp) (ih ?_)
    simp [Builder.addInput, hp]

/-- Declarations add to the variables only. -/
theorem GlobalsLowered.graph_eq {ds : List Declaration} {b b' : Builder}
    (h : GlobalsLowered ds b b') : b'.graph = { b.graph with globals := b'.graph.globals } := by
  induction h with
  | nil b => rfl
  | cons ht hd hs ih =>
    rw [ih]
    rfl

/-- Parameters add to the inputs only, and take no id. -/
theorem ParamsLowered.graph_eq {pin : Nat} {ps : List Parameter} {b b' : Builder}
    (h : ParamsLowered pin ps b b') :
    b'.graph = { b.graph with inputs := b'.graph.inputs } ∧ b'.next = b.next := by
  induction h with
  | nil pin b => exact ⟨rfl, rfl⟩
  | cons ht hs ih =>
    obtain ⟨ihg, ihn⟩ := ih
    refine ⟨?_, ihn⟩
    rw [ihg]
    rfl

theorem Builder.sound_start {first : Ref} (h : 1 ≤ first) : (Builder.start first).Sound :=
  ⟨fun name binding hb => by simp [Builder.start] at hb, h, fun v hv => by
    simp [Builder.start, Graph.empty] at hv⟩

/-- A program that has a graph reaches it by a run of steps, from the empty graph on, and what its
names stand for is in the graph. -/
theorem ProgramLowered.steps {t : Builtins} {p : Program} {first : Ref} {g : Graph}
    (h : ProgramLowered t p first g) (hf : 1 ≤ first) :
    ∃ b, Steps t ⟨[], Builder.start first⟩ ⟨[], b⟩ ∧ g = { b.graph with counter := b.next } := by
  obtain ⟨hg, he⟩ := h
  rename_i b₁ b₂
  refine ⟨b₂, ?_, rfl⟩
  have h₁ : Steps t _ _ := hg.steps
  have hs₁ := h₁.sound (Builder.sound_start hf)
  generalize p.entry? = m at he
  cases he with
  | absent => exact h₁
  | present hp hb =>
    have h₂ : Steps t _ _ := hp.steps (by rw [hg.graph_eq]; rfl)
    have h₃ := hb.steps (h₂.sound hs₁) (by simp)
    exact .tail ((h₁.trans h₂).trans h₃) (.expr (.note ..))

end ScriptGraph
