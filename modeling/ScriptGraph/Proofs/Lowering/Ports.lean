import ScriptGraph.Proofs.Compilation
import ScriptGraph.Proofs.Lowering.Integrity
import ScriptGraph.Proofs.Lowering.Types

/-!
# Outputs of nodes

A node has one output, unless it splits a vector: then it has one for each component. Which output a
component is taken from follows from its name, and which node splits the value from the type that
the value has at that point. Nothing compares the two.

* `Opcode.outputs`, `Graph.outputCount`, `Graph.Ported` — the outputs that there are, and graphs in
  which no others are used;
* `Expr.components`, `Program.components` — the components that a text takes, with the types of the
  values;
* `PinRule`, `Builder.Wired` — a rule for the outputs of nodes, and builders whose wires keep to it;
* `ExprLowered.wired`, `StmtLowered.wired` — lowering keeps to a rule if the components of the text
  do;
* `compile_ports` — what this says about the graph of a source.
-/

namespace ScriptGraph

open Lowering

/-! ## Outputs -/

/-- How many outputs a node has, by its operation. -/
def Opcode.outputs (opcode : Opcode) : Nat :=
  if opcode = Opcode.splitVector2 then 2
  else if opcode = Opcode.splitVector3 then 3
  else 1

namespace Graph

/-- How many outputs the part of a graph with some id has. The method's inputs are outputs of the
endpoint. -/
def outputCount (g : Graph) (ref : Ref) : Nat :=
  if ref = Ref.endpoint then g.inputs.length
  else
    match g.node? ref with
    | some n => Opcode.outputs n.opcode
    | none => if g.literals.any (·.ref == ref) then 1 else 0

/-- Data comes from outputs that are there. -/
def Ported (g : Graph) : Prop :=
  ∀ c ∈ g.connections, c.isExecution = false → c.sourcePin < g.outputCount c.source

instance (g : Graph) : Decidable g.Ported :=
  inferInstanceAs (Decidable (∀ c ∈ g.connections, c.isExecution = false → _))

end Graph

/-! ## Components in a text -/

namespace Expr

mutual

/-- The components that an expression takes: the type of the value, and the component's name. -/
def components (kinds : Kinds) : Expr → List (ValueType × String)
  | .number _ => []
  | .var _ => []
  | .neg inner => inner.components kinds
  | .not inner => inner.components kinds
  | .binary _ left right => left.components kinds ++ right.components kinds
  | .call receiver member args =>
    match kinds receiver.text with
    | some kind => [(kind.type, member.text)]
    | none => argsComponents kinds args
  | .construct _ args => argsComponents kinds args

/-- The components that some arguments take. -/
def argsComponents (kinds : Kinds) : List Expr → List (ValueType × String)
  | [] => []
  | arg :: args => arg.components kinds ++ argsComponents kinds args

end

end Expr

namespace Stmt

mutual

/-- The components that a statement takes. -/
def components (kinds : Kinds) : Stmt → List (ValueType × String)
  | .declare d _ => d.init.elim [] (Expr.components kinds)
  | .assign _ _ value _ => value.components kinds
  | .branch test thenBody none _ => test.components kinds ++ bodyComponents kinds thenBody
  | .branch test thenBody (some elseBody) _ =>
    test.components kinds ++ bodyComponents kinds thenBody ++
      bodyComponents (bodyRetype kinds thenBody) elseBody
  | .ret values _ => Expr.argsComponents kinds values
  | .call receiver member args _ => (Expr.call receiver member args).components kinds

/-- The components that statements one after another take. -/
def bodyComponents (kinds : Kinds) : List Stmt → List (ValueType × String)
  | [] => []
  | s :: rest => s.components kinds ++ bodyComponents (s.retype kinds) rest

end

end Stmt

/-- The components that a program takes. -/
def Program.components (p : Program) : List (ValueType × String) :=
  p.entry?.elim [] fun m => Stmt.bodyComponents (p.kinds m) m.body

/-! ## Rules for outputs -/

/-- Which outputs of nodes may be used, by their operation. The first one always may. -/
structure PinRule where
  /-- may this output be used? -/
  Allows : Opcode → Nat → Prop
  first : ∀ opcode, Allows opcode 0

namespace PinRule

/-- Only outputs that are there may be used. -/
def strict : PinRule where
  Allows opcode pin := pin < Opcode.outputs opcode
  first opcode := by
    rw [Opcode.outputs]
    split
    · decide
    · split <;> decide

/-- The third output of a node that splits a vector in two may be used too. -/
def lenient : PinRule where
  Allows opcode pin := pin < Opcode.outputs opcode ∨ opcode = Opcode.splitVector2 ∧ pin = 2
  first opcode := .inl (strict.first opcode)

/-- The components of a text keep to a rule. -/
def Admits (r : PinRule) (components : List (ValueType × String)) : Prop :=
  ∀ x ∈ components, ∀ pin, componentPin? x.2 = some pin → r.Allows (splitter x.1) pin

theorem admits_append {r : PinRule} {xs ys : List (ValueType × String)} :
    r.Admits (xs ++ ys) ↔ r.Admits xs ∧ r.Admits ys :=
  List.forall_mem_append

end PinRule

/-- An output of a graph is an input of the method, the value of a literal or an output of a node
that may be used. -/
def Graph.Offers (r : PinRule) (g : Graph) (ref : Ref) (pin : Nat) : Prop :=
  (ref = Ref.endpoint ∧ pin < g.inputs.length) ∨
    (pin = 0 ∧ ∃ l ∈ g.literals, l.ref = ref) ∨
    ∃ n ∈ g.nodes, n.ref = ref ∧ r.Allows n.opcode pin

/-- What a builder offers, it still offers once it has grown. -/
theorem Graph.Offers.mono {r : PinRule} {b b' : Builder} {ref : Ref} {pin : Nat}
    (h : b.graph.Offers r ref pin) (hle : b.Le b') : b'.graph.Offers r ref pin := by
  rcases h with ⟨he, hp⟩ | ⟨hp, l, hl, hr⟩ | ⟨n, hn, hr⟩
  · exact .inl ⟨he, Nat.lt_of_lt_of_le hp hle.inputs.length_le⟩
  · exact .inr (.inl ⟨hp, l, hle.literals.subset hl, hr⟩)
  · exact .inr (.inr ⟨n, hle.nodes.subset hn, hr⟩)

namespace Builder

variable {r : PinRule} {b b' : Builder}

/-- A wire leads to an output that the graph offers. -/
def Ported (r : PinRule) (b : Builder) (w : Wire) : Prop :=
  b.graph.Offers r w.ref w.pin

/-- So does what a name stands for. -/
def PortedBinding (r : PinRule) (b : Builder) : Binding → Prop
  | .wire wire => b.Ported r wire
  | .parameter _ pin => pin < b.graph.inputs.length
  | .globalVar _ _ => True

/-- All wires of a builder, those of names and those of data connections, keep to a rule. -/
structure Wired (r : PinRule) (b : Builder) : Prop where
  scope : ∀ name binding, b.scope.get? name = some binding → b.PortedBinding r binding
  sources : ∀ c ∈ b.graph.connections, c.isExecution = false →
    b.graph.Offers r c.source c.sourcePin

theorem Ported.mono {w : Wire} (h : b.Ported r w) (hle : b.Le b') : b'.Ported r w :=
  Graph.Offers.mono h hle

theorem PortedBinding.mono {binding : Binding} (h : b.PortedBinding r binding) (hle : b.Le b') :
    b'.PortedBinding r binding := by
  cases binding with
  | wire wire => exact Ported.mono h hle
  | parameter type pin => exact Nat.lt_of_lt_of_le h hle.inputs.length_le
  | globalVar type ref => trivial

namespace Wired

/-- A builder that has grown keeps to a rule if the connections that were added do. -/
theorem grow (h : b.Wired r) (hle : b.Le b') (hscope : b'.scope = b.scope) (cs : List Connection)
    (hc : b'.graph.connections = b.graph.connections ++ cs)
    (hcs : ∀ c ∈ cs, c.isExecution = false → b'.graph.Offers r c.source c.sourcePin) :
    b'.Wired r := by
  refine ⟨fun name binding hb => ?_, fun c hm hx => ?_⟩
  · rw [hscope] at hb
    exact (h.scope name binding hb).mono hle
  · rw [hc] at hm
    rcases List.mem_append.mp hm with hm | hm
    · exact (h.sources c hm hx).mono hle
    · exact hcs c hm hx

/-- So it does if none was added. -/
theorem quiet (h : b.Wired r) (hle : b.Le b') (hscope : b'.scope = b.scope)
    (hc : b'.graph.connections = b.graph.connections) : b'.Wired r :=
  h.grow hle hscope [] (by rw [hc, List.append_nil]) nofun

/-- A connection is added. -/
theorem connect (h : b.Wired r) {c : Connection} (hc : c.isExecution = false →
    b.graph.Offers r c.source c.sourcePin) : (b.connect c).Wired r := by
  refine h.grow (b.le_connect c) rfl [c] rfl fun c' hc' hx => ?_
  obtain rfl := List.mem_singleton.mp hc'
  exact (hc hx).mono (b.le_connect _)

/-- A node is added with its inputs. -/
theorem emit (h : b.Wired r) (opcode : Opcode) (place : Place) (linked : Ref) {inputs : List Wire}
    (hw : ∀ w ∈ inputs, b.Ported r w) : (b.emit opcode place linked inputs).Wired r := by
  refine h.grow (b.le_emit _ _ _ _) rfl (feeds b.next 0 inputs) rfl fun c hc _ => ?_
  obtain ⟨-, -, w, hwm, hs, hp⟩ := mem_feeds hc
  rw [hs, hp]
  exact (hw w hwm).mono (b.le_emit _ _ _ _)

/-- A builder that has bound a name keeps to a rule if what the name stands for does. -/
theorem insert (h : b.Wired r) (hle : b.Le b') {name : String} {binding : Binding}
    (hscope : b'.scope = b.scope.insert name binding)
    (hc : b'.graph.connections = b.graph.connections) (hb : b'.PortedBinding r binding) :
    b'.Wired r := by
  refine ⟨fun other found hf => ?_, fun c hm hx => (h.sources c (hc ▸ hm) hx).mono hle⟩
  rw [hscope] at hf
  by_cases ho : other = name
  · subst ho
    rw [Dictionary.get?_insert_self] at hf
    obtain rfl := Option.some.inj hf
    exact hb
  · rw [Dictionary.get?_insert_of_ne ho] at hf
    exact (h.scope other found hf).mono hle

/-- A name is bound. -/
theorem bind (h : b.Wired r) {name : String} {binding : Binding} (hb : b.PortedBinding r binding) :
    (b.bind name binding).Wired r :=
  h.insert (b.le_bind _ _) rfl rfl (hb.mono (b.le_bind _ _))

end Wired

/-- An output of a node that was just added. -/
theorem ported_emit (b : Builder) (opcode : Opcode) (place : Place) (linked : Ref)
    (inputs : List Wire) {pin : Nat} (h : r.Allows opcode pin) :
    (b.emit opcode place linked inputs).graph.Offers r b.next pin :=
  .inr (.inr ⟨⟨opcode, b.next, place, linked⟩, by simp [emit], rfl, h⟩)

/-- The first output of a node that was just added. -/
theorem ported_operate (b : Builder) (opcode : Opcode) (place : Place) (inputs : List Wire)
    (type : ValueType) : (b.operate opcode place inputs).Ported r (.ofRef type b.next) :=
  b.ported_emit opcode place Ref.unlinked inputs (r.first opcode)

theorem ported_addNode (b : Builder) (n : Node) (type : ValueType) :
    (b.addNode n).Ported r (.ofRef type n.ref) :=
  .inr (.inr ⟨n, by simp [addNode], rfl, r.first n.opcode⟩)

theorem ported_addLiteral (b : Builder) (name : String) (place : Place) (value : Binary32)
    {w : Wire} (hr : w.ref = b.next) (hp : w.pin = 0) :
    (b.addLiteral name place value).Ported r w :=
  .inr (.inl ⟨hp, ⟨b.next, name, place, value⟩, by simp [addLiteral], hr.symm⟩)

/-- A name is read. -/
theorem Wired.reading (h : b.Wired r) {binding : Binding} (hb : b.PortedBinding r binding) :
    (b.afterReading binding).Wired r ∧ (b.afterReading binding).Ported r (b.reading binding) := by
  cases binding with
  | wire wire => exact ⟨h, hb⟩
  | parameter type pin => exact ⟨h, .inl ⟨rfl, hb⟩⟩
  | globalVar type ref => exact ⟨h.emit _ _ _ nofun, b.ported_emit _ _ _ _ (r.first _)⟩

end Builder

/-! ## Expressions -/

section

variable {r : PinRule} {t : Builtins} {kinds : Kinds}

mutual

/-- Lowering an expression keeps to a rule if its components do, and yields a wire that does. -/
theorem ExprLowered.wired {e : Expr} {b b' : Builder} {w : Wire} (h : ExprLowered t e b w b')
    (hc : b.Typed kinds) (hr : r.Admits (e.components kinds)) (hb : b.Wired r) :
    b'.Wired r ∧ b'.Ported r w ∧ b.Le b' := by
  cases h with
  | number value b =>
    have hle := (b.le_addLiteral "Value" Place.origin value).trans
      (Builder.le_note _ (.literalMade b.next value))
    exact ⟨hb.quiet hle rfl rfl, (b.ported_addLiteral _ _ _ rfl rfl).mono (Builder.le_note _ _),
      hle⟩
  | @bound name _ binding hn =>
    obtain ⟨hb₁, hw⟩ := hb.reading (hb.scope _ _ hn)
    exact ⟨hb₁, hw, b.le_afterReading binding⟩
  | constant hn ho => exact ⟨hb.emit _ _ _ nofun, b.ported_operate _ _ _ _, b.le_operate _ _ _⟩
  | neg h =>
    obtain ⟨hb₁, hw, hle⟩ := h.wired hc hr hb
    refine ⟨hb₁.emit _ _ _ ?_, Builder.ported_operate _ _ _ _ _,
      hle.trans (Builder.le_operate _ _ _ _)⟩
    simpa using hw
  | not h =>
    obtain ⟨hb₁, hw, hle⟩ := h.wired hc hr hb
    refine ⟨hb₁.emit _ _ _ ?_, Builder.ported_operate _ _ _ _ _,
      hle.trans (Builder.le_operate _ _ _ _)⟩
    simpa using hw
  | binary hl hr' ho =>
    obtain ⟨hr₁, hr₂⟩ := PinRule.admits_append.mp hr
    obtain ⟨hb₁, hw₁, hle₁⟩ := hl.wired hc hr₁ hb
    obtain ⟨hb₂, hw₂, hle₂⟩ := hr'.wired (hc.of_scope_eq hl.scope_eq) hr₂ hb₁
    refine ⟨hb₂.emit _ _ _ ?_, Builder.ported_operate _ _ _ _ _,
      (hle₁.trans hle₂).trans (Builder.le_operate _ _ _ _)⟩
    simpa using ⟨hw₁.mono hle₂, hw₂⟩
  | @component receiver member args _ binding pin hn hp =>
    obtain ⟨k, hk, -, ht⟩ := hc.bound hn
    obtain ⟨hb₁, hw⟩ := hb.reading (hb.scope _ _ hn)
    have hallows : r.Allows (splitter (b.reading binding).type) pin := by
      rw [b.type_reading, ← ht]
      exact hr (k.type, member.text) (by simp [Expr.components, hk]) pin hp
    refine ⟨hb₁.emit _ _ _ ?_, Builder.ported_emit _ _ _ _ _ hallows,
      (b.le_afterReading binding).trans (Builder.le_operate _ _ _ _)⟩
    simpa using hw
  | function hn ho ha =>
    rw [Expr.components, hc.unbound hn] at hr
    obtain ⟨hb₁, hle⟩ := ha.wired hc hr (hb.quiet b.le_reserve rfl rfl)
    exact ⟨hb₁.quiet (Builder.le_addNode _ _) rfl rfl,
      Builder.ported_addNode _ _ _, (b.le_reserve.trans hle).trans (Builder.le_addNode _ _)⟩
  | construct ho ha =>
    obtain ⟨hb₁, hle⟩ := ha.wired hc hr (hb.quiet b.le_reserve rfl rfl)
    exact ⟨hb₁.quiet (Builder.le_addNode _ _) rfl rfl,
      Builder.ported_addNode _ _ _, (b.le_reserve.trans hle).trans (Builder.le_addNode _ _)⟩

theorem ArgsLowered.wired {target : Ref} {pin : Nat} {args : List Expr} {b b' : Builder}
    {ws : List Wire} (h : ArgsLowered t target pin args b ws b') (hc : b.Typed kinds)
    (hr : r.Admits (Expr.argsComponents kinds args)) (hb : b.Wired r) : b'.Wired r ∧ b.Le b' := by
  cases h with
  | nil => exact ⟨hb, Builder.Le.refl b⟩
  | cons h hs =>
    obtain ⟨hr₁, hr₂⟩ := PinRule.admits_append.mp hr
    obtain ⟨hb₁, hw, hle⟩ := h.wired hc hr₁ hb
    obtain ⟨hb₂, hle₂⟩ := hs.wired (hc.of_scope_eq h.scope_eq) hr₂ (hb₁.connect fun _ => hw)
    exact ⟨hb₂, (hle.trans (Builder.le_connect _ _)).trans hle₂⟩

end

/-! ## Statements -/

namespace Builder

variable {b : Builder}

/-- A condition is conjoined with an outer one. -/
theorem Wired.conjunction (h : b.Wired r) {outer : Option Wire} {inner : Wire}
    (ho : ∀ w ∈ outer, b.Ported r w) (hi : b.Ported r inner) :
    (b.afterConjunction outer inner).Wired r ∧
      (b.afterConjunction outer inner).Ported r (b.conjoined outer inner) ∧
      b.Le (b.afterConjunction outer inner) := by
  cases outer with
  | none => exact ⟨h, hi, Le.refl b⟩
  | some outer =>
    refine ⟨h.emit _ _ _ ?_, b.ported_operate _ _ _ _, b.le_operate _ _ _⟩
    simpa using ⟨ho outer rfl, hi⟩

/-- The previous value of a target is at hand. -/
theorem Wired.previous (h : b.Wired r) {binding : Binding} {previous : Option Wire}
    (hb : b.PortedBinding r binding) (hp : ∀ w ∈ previous, b.Ported r w) :
    (b.afterPrevious binding previous).Wired r ∧
      (b.afterPrevious binding previous).Ported r (b.previousWire binding previous) ∧
      b.Le (b.afterPrevious binding previous) := by
  cases previous with
  | none =>
    obtain ⟨h₁, hw⟩ := h.reading hb
    exact ⟨h₁, hw, b.le_afterReading binding⟩
  | some previous => exact ⟨h, hp previous rfl, Le.refl b⟩

/-- A value is gated by a condition. -/
theorem Wired.gating (h : b.Wired r) {binding : Binding} {new : Wire}
    {previous condition : Option Wire} (hb : b.PortedBinding r binding) (hn : b.Ported r new)
    (hp : ∀ w ∈ previous, b.Ported r w) (ho : ∀ w ∈ condition, b.Ported r w) :
    (b.afterGating binding new previous condition).Wired r ∧
      (b.afterGating binding new previous condition).Ported r
        (b.gatedWire binding new previous condition) ∧
      b.Le (b.afterGating binding new previous condition) := by
  cases condition with
  | none => exact ⟨h, hn, Le.refl b⟩
  | some condition =>
    obtain ⟨h₁, hw, hle⟩ := h.previous hb hp
    refine ⟨h₁.emit _ _ _ ?_, ported_operate _ _ _ _ _, hle.trans (le_operate _ _ _ _)⟩
    simpa using ⟨(ho condition rfl).mono hle, hn.mono hle, hw⟩

/-- A value is stored. -/
theorem Wired.store (h : b.Wired r) (name : String) {value : Wire} (last : Ref) (binding : Binding)
    (hv : b.Ported r value) :
    (b.afterStore name value last binding).Wired r ∧
      b.Le (b.afterStore name value last binding) := by
  cases binding with
  | wire wire => exact ⟨h.bind hv, b.le_bind _ _⟩
  | parameter type pin => exact ⟨h.bind hv, b.le_bind _ _⟩
  | globalVar type ref =>
    refine ⟨(h.emit _ _ _ ?_).connect nofun, (b.le_emit _ _ _ _).trans (le_connect _ _)⟩
    simpa using hv

end Builder

/-- The right-hand side of an assignment. -/
theorem AssignedLowered.wired {binding : Binding} {op : AssignOp} {e : Expr} {b b' : Builder}
    {new : Wire} {previous : Option Wire} (h : AssignedLowered t binding op e b new previous b')
    (hc : b.Typed kinds) (hr : r.Admits (e.components kinds)) (hb : b.Wired r)
    (hn : b.PortedBinding r binding) :
    b'.Wired r ∧ b'.Ported r new ∧ (∀ w ∈ previous, b'.Ported r w) ∧ b.Le b' := by
  cases h with
  | plain hop he =>
    obtain ⟨hb₁, hw, hle⟩ := he.wired hc hr hb
    exact ⟨hb₁, hw, nofun, hle⟩
  | compound hop he ho =>
    obtain ⟨hb₁, hw₁⟩ := hb.reading hn
    obtain ⟨hb₂, hw₂, hle₂⟩ := he.wired (hc.of_scope_eq (b.scope_afterReading binding)) hr hb₁
    have hw₁ := hw₁.mono hle₂
    refine ⟨hb₂.emit _ _ _ ?_, Builder.ported_operate _ _ _ _ _, ?_,
      ((b.le_afterReading binding).trans hle₂).trans (Builder.le_operate _ _ _ _)⟩
    · simpa using ⟨hw₁, hw₂⟩
    · simpa using hw₁.mono (Builder.le_operate _ _ _ _)

/-- The values of a return. -/
theorem OutputsLowered.wired {index : Nat} {values : List Expr} {b b' : Builder}
    (h : OutputsLowered t index values b b') (hc : b.Typed kinds)
    (hr : r.Admits (Expr.argsComponents kinds values)) (hb : b.Wired r) :
    b'.Wired r ∧ b.Le b' := by
  induction h with
  | nil index b => exact ⟨hb, Builder.Le.refl b⟩
  | @cons index value values b b₁ b₂ w h hs ih =>
    obtain ⟨hr₁, hr₂⟩ := PinRule.admits_append.mp hr
    obtain ⟨hb₁, hw, hle⟩ := h.wired hc hr₁ hb
    have hle₁ := b₁.le_ensureOutput index
    have hb₂ := hb₁.quiet hle₁ rfl (b₁.ensureOutput_connections index)
    obtain ⟨hb₃, hle₃⟩ := ih (hc.of_scope_eq h.scope_eq) hr₂ (hb₂.connect fun _ => hw.mono hle₁)
    exact ⟨hb₃, ((hle.trans hle₁).trans (Builder.le_connect _ _)).trans hle₃⟩

/-- The first body of a choice is entered: the test, then its conjunction with the outer
condition. -/
theorem ExprLowered.wired_then {test : Expr} {b b₁ : Builder} {w : Wire}
    (h : ExprLowered t test b w b₁) (hc : b.Typed kinds) (hr : r.Admits (test.components kinds))
    (hb : b.Wired r) {outer : Option Wire} (ho : ∀ v ∈ outer, b.Ported r v) :
    (b₁.afterConjunction outer w).Wired r ∧
      (∀ v ∈ some (b₁.conjoined outer w), (b₁.afterConjunction outer w).Ported r v) ∧
      (b₁.afterConjunction outer w).Ported r w ∧ (b₁.afterConjunction outer w).Typed kinds ∧
      b.Le (b₁.afterConjunction outer w) := by
  obtain ⟨hb₁, hw, hle₁⟩ := h.wired hc hr hb
  obtain ⟨hb₂, hj, hle₂⟩ := hb₁.conjunction (fun v hv => (ho v hv).mono hle₁) hw
  exact ⟨hb₂, by simpa using hj, hw.mono hle₂,
    hc.of_scope_eq ((b₁.scope_afterConjunction outer w).trans h.scope_eq), hle₁.trans hle₂⟩

mutual

/-- Lowering a statement keeps to a rule if its components do. -/
theorem StmtLowered.wired {condition : Option Wire} {last last' : Ref} {s : Stmt} {b b' : Builder}
    (h : StmtLowered t condition last s b last' b') {kinds : Kinds} (hc : b.Typed kinds)
    (hr : r.Admits (s.components kinds)) (hb : b.Wired r) (ho : ∀ w ∈ condition, b.Ported r w) :
    b'.Wired r ∧ b.Le b' := by
  cases h with
  | @declarePublic _ _ d _ _ type hp hi ht =>
    have hle := b.le_addLiteral d.name.text Place.publicValue (.ofInt 0)
    exact ⟨(hb.quiet hle rfl rfl).bind (b.ported_addLiteral _ _ _ rfl rfl),
      hle.trans (Builder.le_bind _ _ _)⟩
  | declare hp hi he =>
    rw [Stmt.components, hi] at hr
    obtain ⟨hb₁, hw, hle⟩ := he.wired hc hr hb
    exact ⟨hb₁.bind hw, hle.trans (Builder.le_bind _ _ _)⟩
  | assign hn ha =>
    have hn₀ := hb.scope _ _ hn
    obtain ⟨hb₁, hw, hp, hle₁⟩ := ha.wired hc hr hb hn₀
    obtain ⟨hb₂, hk, hle₂⟩ := hb₁.gating (hn₀.mono hle₁) hw hp fun w hw => (ho w hw).mono hle₁
    obtain ⟨hb₃, hle₃⟩ := hb₂.store _ last _ hk
    exact ⟨hb₃, (hle₁.trans hle₂).trans hle₃⟩
  | branch he ht =>
    obtain ⟨hr₁, hr₂⟩ := PinRule.admits_append.mp hr
    obtain ⟨hb₁, hj, -, hc₁, hle₁⟩ := he.wired_then hc hr₁ hb ho
    obtain ⟨hb₂, hle₂⟩ := ht.wired hc₁ hr₂ hb₁ hj
    exact ⟨hb₂, hle₁.trans hle₂⟩
  | @branchElse _ _ _ _ test thenBody elseBody _ _ b₁ b₂ b₃ _ w he ht hnot hf =>
    obtain ⟨hr₁₂, hr₃⟩ := PinRule.admits_append.mp hr
    obtain ⟨hr₁, hr₂⟩ := PinRule.admits_append.mp hr₁₂
    obtain ⟨hb₁, hj, hw, hc₁, hle₁⟩ := he.wired_then hc hr₁ hb ho
    obtain ⟨hb₂, hle₂⟩ := ht.wired hc₁ hr₂ hb₁ hj
    -- behind the first body, the test is negated and conjoined with the outer condition again
    have hle₃ : b₂.Le b₃ := hnot ▸ b₂.le_operate _ _ _
    have hb₃ : b₃.Wired r := hnot ▸ hb₂.emit _ _ _ (by simpa using hw.mono hle₂)
    have hnw : b₃.Ported r (.ofRef .bool b₂.next) := hnot ▸ b₂.ported_operate _ _ _ _
    obtain ⟨hb₄, hj', hle₄⟩ := hb₃.conjunction
      (fun w hw => (ho w hw).mono ((hle₁.trans hle₂).trans hle₃)) hnw
    have hscope : b₃.scope = b₂.scope := by rw [hnot]; rfl
    have hc₄ := (ht.made_eq hc₁).2.of_scope_eq
      ((b₃.scope_afterConjunction condition (.ofRef .bool b₂.next)).trans hscope)
    obtain ⟨hb₅, hle₅⟩ := hf.wired hc₄ hr₃ hb₄ (by simpa using hj')
    exact ⟨hb₅, (((hle₁.trans hle₂).trans hle₃).trans hle₄).trans hle₅⟩
  | ret h =>
    obtain ⟨hb₁, hle⟩ := h.wired hc hr hb
    exact ⟨hb₁.connect nofun, hle.trans (Builder.le_connect _ _)⟩
  | call h =>
    obtain ⟨hb₁, -, hle⟩ := h.wired hc hr hb
    exact ⟨hb₁, hle⟩

/-- So does lowering statements one after another. -/
theorem BodyLowered.wired {condition : Option Wire} {last last' : Ref} {body : List Stmt}
    {b b' : Builder} (h : BodyLowered t condition last body b last' b') {kinds : Kinds}
    (hc : b.Typed kinds) (hr : r.Admits (Stmt.bodyComponents kinds body)) (hb : b.Wired r)
    (ho : ∀ w ∈ condition, b.Ported r w) : b'.Wired r ∧ b.Le b' := by
  cases h with
  | nil => exact ⟨hb, Builder.Le.refl b⟩
  | cons h hret hs =>
    obtain ⟨hr₁, hr₂⟩ := PinRule.admits_append.mp hr
    obtain ⟨hb₁, hle₁⟩ := h.wired hc hr₁ hb ho
    obtain ⟨hb₂, hle₂⟩ := hs.wired (h.made_eq hc).2 hr₂ hb₁ fun w hw => (ho w hw).mono hle₁
    exact ⟨hb₂, hle₁.trans hle₂⟩

end

/-! ## Programs -/

theorem GlobalsLowered.wired {ds : List Declaration} {b b' : Builder} (h : GlobalsLowered ds b b')
    (hb : b.Wired r) : b'.Wired r := by
  induction h with
  | nil b => exact hb
  | cons ht hd hs ih => exact ih (hb.insert (Builder.le_declareGlobal _ _ _ _) rfl rfl trivial)

/-- A parameter is bound to the input that it adds. -/
theorem ParamsLowered.wired {pin : Nat} {ps : List Parameter} {b b' : Builder}
    (h : ParamsLowered pin ps b b') (hp : pin = b.graph.inputs.length) (hb : b.Wired r) :
    b'.Wired r := by
  induction h with
  | nil pin b => exact hb
  | @cons pin q ps b b' type ht hs ih =>
    have hlen : (b.addInput q.name.text type pin).graph.inputs.length = pin + 1 := by
      simp [Builder.addInput, hp]
    refine ih hlen.symm (hb.insert (b.le_addInput _ _ _) rfl rfl ?_)
    rw [Builder.PortedBinding, hlen]
    exact Nat.lt_succ_self pin

/-- The data connections of the graph of a program keep to a rule if the components of the program
do. -/
theorem ProgramLowered.offers {p : Program} {first : Ref} {g : Graph}
    (h : ProgramLowered t p first g) (hr : r.Admits p.components) :
    ∀ c ∈ g.connections, c.isExecution = false → g.Offers r c.source c.sourcePin := by
  obtain ⟨hg, he⟩ := h
  have hb₁ := hg.wired (r := r) ⟨nofun, nofun⟩
  rw [Program.components] at hr
  rcases hm : p.entry? with _ | m
  · rw [hm] at he
    cases he
    exact hb₁.sources
  · rw [hm] at he hr
    obtain ⟨-⟩ | ⟨hp, hb⟩ := he
    have hb₂ := hp.wired (by rw [hg.graph_eq]; rfl) hb₁
    exact (hb.wired (Program.typed_kinds hg hp).1 hr hb₂ nofun).1.sources

end

/-! ## Graphs -/

/-- A component has one of the first two outputs, unless it is the third one. -/
theorem componentPin?_eq_some {member : String} {pin : Nat} (h : componentPin? member = some pin) :
    pin < 2 ∨ pin = 2 ∧ member = "Z" := by
  rw [componentPin?] at h
  split at h
  · exact .inl (by simp [← Option.some.inj h])
  split at h
  · exact .inl (by simp [← Option.some.inj h])
  split at h
  · exact .inr ⟨(Option.some.inj h).symm, ‹_›⟩
  · cases h

namespace PinRule

/-- The first two components may be taken of every value, the third one of vectors of three. -/
theorem strict_allows {type : ValueType} {member : String} {pin : Nat}
    (hp : componentPin? member = some pin) (h : member = "Z" → type = .vector3) :
    strict.Allows (splitter type) pin := by
  rcases componentPin?_eq_some hp with hlt | ⟨rfl, hz⟩
  · refine Nat.lt_of_lt_of_le hlt ?_
    rw [splitter]
    split <;> decide
  · rw [h hz]
    exact Nat.lt_succ_self 2

/-- Components keep to the strict rule if the third one is only taken of vectors that have it. -/
theorem strict_admits {xs : List (ValueType × String)} (h : ∀ x ∈ xs, x.2 = "Z" → x.1 = .vector3) :
    strict.Admits xs :=
  fun x hx _ hp => strict_allows hp (h x hx)

/-- All components keep to the lenient rule. -/
theorem lenient_admits (xs : List (ValueType × String)) : lenient.Admits xs := by
  intro x _ pin hp
  by_cases hz : x.2 = "Z" → x.1 = .vector3
  · exact .inl (strict_allows hp hz)
  · obtain ⟨hz, ht⟩ := Classical.not_imp.mp hz
    rw [hz] at hp
    exact .inr ⟨by rw [splitter, if_neg ht], (Option.some.inj hp).symm⟩

end PinRule

namespace Graph

variable {g : Graph}

/-- A node is found by its id. -/
theorem node?_ref (hd : g.refs.Nodup) {n : Node} (hn : n ∈ g.nodes) : g.node? n.ref = some n := by
  rcases hf : g.node? n.ref with _ | m
  · exact absurd (beq_self_eq_true n.ref) (List.find?_eq_none.mp hf n hn)
  · have hr : m.ref = n.ref := by simpa using List.find?_some hf
    rw [node_eq_of_ref_eq hd (List.mem_of_find?_eq_some hf) hn hr]

theorem outputCount_node (hd : g.refs.Nodup) (he : Ref.endpoint ∉ g.refs) {n : Node}
    (hn : n ∈ g.nodes) : g.outputCount n.ref = n.opcode.outputs := by
  have hne : n.ref ≠ Ref.endpoint := fun h => he (h ▸ node_ref_mem hn)
  rw [outputCount, if_neg hne, node?_ref hd hn]

theorem outputCount_literal (hd : g.refs.Nodup) (he : Ref.endpoint ∉ g.refs) {l : Literal}
    (hl : l ∈ g.literals) : g.outputCount l.ref = 1 := by
  have hne : l.ref ≠ Ref.endpoint := fun h => he (h ▸ literal_ref_mem hl)
  have hf : g.node? l.ref = none :=
    List.find?_eq_none.mpr fun n hn => by simpa using node_ref_ne_literal hd hn hl
  have hany : g.literals.any (·.ref == l.ref) = true := List.any_eq_true.mpr ⟨l, hl, by simp⟩
  rw [outputCount, if_neg hne, hf, hany]
  rfl

/-- An output that a graph offers is there, or a rule allows it for a node. -/
theorem Offers.lt_or {r : PinRule} {ref : Ref} {pin : Nat} (h : g.Offers r ref pin)
    (hd : g.refs.Nodup) (he : Ref.endpoint ∉ g.refs) :
    pin < g.outputCount ref ∨ ∃ n ∈ g.nodes, n.ref = ref ∧ r.Allows n.opcode pin := by
  rcases h with ⟨rfl, hp⟩ | ⟨rfl, l, hl, rfl⟩ | hn
  · exact .inl (by rwa [outputCount, if_pos rfl])
  · exact .inl (by rw [outputCount_literal hd he hl]; exact Nat.one_pos)
  · exact .inr hn

/-- Some id is that of a node that splits a vector in two. -/
def SplitsInTwo (g : Graph) (ref : Ref) : Prop :=
  ∃ n ∈ g.nodes, n.ref = ref ∧ n.opcode = Opcode.splitVector2

theorem outputCount_of_splitsInTwo (hd : g.refs.Nodup) (he : Ref.endpoint ∉ g.refs) {ref : Ref}
    (h : g.SplitsInTwo ref) : g.outputCount ref = 2 := by
  obtain ⟨n, hn, rfl, ho⟩ := h
  rw [outputCount_node hd he hn, ho]
  rfl

/-- What the strict rule allows is there. -/
theorem Offers.lt_outputCount {ref : Ref} {pin : Nat} (h : g.Offers .strict ref pin)
    (hd : g.refs.Nodup) (he : Ref.endpoint ∉ g.refs) : pin < g.outputCount ref := by
  rcases h.lt_or hd he with h | ⟨n, hn, rfl, ha⟩
  · exact h
  · rw [outputCount_node hd he hn]
    exact ha

/-- What the lenient rule allows is there, or it is the third output of a node that splits a vector
in two. -/
theorem Offers.lt_outputCount_or {ref : Ref} {pin : Nat} (h : g.Offers .lenient ref pin)
    (hd : g.refs.Nodup) (he : Ref.endpoint ∉ g.refs) :
    pin < g.outputCount ref ∨ pin = 2 ∧ g.SplitsInTwo ref := by
  rcases h.lt_or hd he with h | ⟨n, hn, rfl, ha | ⟨ho, hp⟩⟩
  · exact .inl h
  · rw [outputCount_node hd he hn]
    exact .inl ha
  · exact .inr ⟨hp, n, hn, rfl, ho⟩

/-! Repair moves nodes and adds to the execution only. -/

theorem refs_repair (g : Graph) : g.repair.refs = g.refs := by
  simp only [refs, repair, List.map_map]
  congr 2
  refine List.map_congr_left fun n _ => ?_
  simp only [Function.comp]
  split <;> rfl

theorem Offers.repair {r : PinRule} {ref : Ref} {pin : Nat} (h : g.Offers r ref pin) :
    g.repair.Offers r ref pin := by
  rcases h with h | h | ⟨n, hn, hr, ha⟩
  · exact .inl h
  · exact .inr (.inl h)
  · refine .inr (.inr ⟨_, List.mem_map_of_mem hn, ?_⟩)
    split
    · exact ⟨hr, ha⟩
    · exact ⟨hr, ha⟩

theorem mem_repair_connections {c : Connection} (h : c ∈ g.repair.connections)
    (hx : c.isExecution = false) : c ∈ g.connections := by
  rcases List.mem_append.mp h with h | h
  · exact h
  · obtain ⟨ref, -, rfl⟩ := List.mem_map.mp h
    cases hx

end Graph

/-- **Outputs of nodes.** In the graph of a source, data comes from outputs that are there, with one
exception: the third output of a node that splits a vector in two. So the graph is sound in this
respect just if no connection starts there; and it is if the text takes the component `Z` only of
values that are vectors of three at that point. -/
theorem compile_ports {o : Options} {source : String} {c : Compiled}
    (h : o.compile source = .ok c) :
    (∀ e ∈ c.graph.connections, e.isExecution = false →
      e.sourcePin < c.graph.outputCount e.source ∨
        e.sourcePin = 2 ∧ c.graph.SplitsInTwo e.source) ∧
    (c.graph.Ported ↔ ∀ e ∈ c.graph.connections, e.isExecution = false → e.sourcePin = 2 →
      ¬ c.graph.SplitsInTwo e.source) ∧
    ∀ p, Program.parse source = .ok p → (∀ x ∈ p.components, x.2 = "Z" → x.1 = .vector3) →
      c.graph.Ported := by
  obtain ⟨hf, p, g, hp, hg, rfl⟩ := Options.compile_ok h
  have hl := ProgramLowered.of_lower hg
  have hd : g.repair.refs.Nodup := g.refs_repair ▸ hl.refs_nodup hf
  have he : Ref.endpoint ∉ g.repair.refs := by
    rw [g.refs_repair, hl.mem_refs hf]
    exact fun h => absurd (Int.le_trans hf h.1) (by decide)
  -- a rule that the components of the text keep to holds of the repaired graph
  have hoffers {r : PinRule} (hr : r.Admits p.components) {e : Connection}
      (hm : e ∈ g.repair.connections) (hx : e.isExecution = false) :
      g.repair.Offers r e.source e.sourcePin :=
    (hl.offers hr e (Graph.mem_repair_connections hm hx) hx).repair
  have hall : ∀ e ∈ g.repair.connections, e.isExecution = false →
      e.sourcePin < g.repair.outputCount e.source ∨
        e.sourcePin = 2 ∧ g.repair.SplitsInTwo e.source := fun e hm hx =>
    (hoffers (PinRule.lenient_admits _) hm hx).lt_outputCount_or hd he
  refine ⟨hall, ⟨fun hported e hm hx hp hs => ?_, fun hno e hm hx => ?_⟩,
    fun p' hp' hz e hm hx => ?_⟩
  · have hlt := hported e hm hx
    rw [hp, Graph.outputCount_of_splitsInTwo hd he hs] at hlt
    exact Nat.lt_irrefl 2 hlt
  · rcases hall e hm hx with hlt | ⟨hp, hs⟩
    · exact hlt
    · exact absurd hs (hno e hm hx hp)
  · obtain rfl : p = p' := Except.ok.inj (hp.symm.trans hp')
    exact (hoffers (PinRule.strict_admits hz) hm hx).lt_outputCount hd he

/-- A program in which a name becomes a vector of three before its component `Z` is taken. -/
def depthOfTriple : String :=
  "Vector2 v; def Main(float f) \x7b f = new Vector3(v.Y(), f, 1); return(f.Z(), v.X()); \x7d"

theorem compile_ports_depthOfTriple :
    ∃ c p, ({} : Options).compile depthOfTriple = .ok c ∧ Program.parse depthOfTriple = .ok p ∧
      p.components = [(.vector2, "Y"), (.vector3, "Z"), (.vector2, "X")] ∧ c.graph.Ported := by
  have hok : (({} : Options).compile depthOfTriple).toOption.isSome = true := by decide +kernel
  have hparts : (Program.parse depthOfTriple).toOption.map Program.components =
      some [(.vector2, "Y"), (.vector3, "Z"), (.vector2, "X")] := by
    decide +kernel
  rcases hc : ({} : Options).compile depthOfTriple with e | c
  · rw [hc] at hok
    cases hok
  rcases hp : Program.parse depthOfTriple with e | p
  · rw [hp] at hparts
    cases hparts
  rw [hp] at hparts
  have hparts : p.components = _ := Option.some.inj hparts
  refine ⟨c, p, rfl, rfl, hparts, (compile_ports hc).2.2 p hp ?_⟩
  rw [hparts]
  decide

/-- A program that takes the component `Z` of a vector of two. -/
def depthOfPair : String :=
  "Vector2 pos; def Main() \x7b return(pos.Z()); \x7d"

/-- Data need not come from an output that is there: `depthOfPair` compiles, and its value comes
from the third output of a node that has two. -/
theorem output_missing :
    ¬∀ (source : String) (c : Compiled), ({} : Options).compile source = .ok c →
      c.graph.Ported := by
  intro hall
  have hrun : (({} : Options).compile depthOfPair).toOption.map (fun c => decide c.graph.Ported) =
      some false := by
    decide +kernel
  rcases hc : ({} : Options).compile depthOfPair with e | c
  · rw [hc] at hrun
    cases hrun
  · rw [hc] at hrun
    exact of_decide_eq_false (Option.some.inj hrun) (hall depthOfPair c hc)

end ScriptGraph
