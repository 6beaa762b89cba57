import ScriptGraph.Lowering.Program
import ScriptGraph.Proofs.Tree.Names

/-!
# Derivations of lowering

A `Lowering` is a program over a builder, and what it does is spread over binds and look-ups that can
fail. Here it is said once what a *successful* lowering did, as relations between the builder before
and the builder after:

* `Builder.emit`, `Builder.addLiteral` and their like — the updates of a builder as plain functions;
* `ExprLowered`, `ArgsLowered` — lowering of expressions and of arguments;
* `StmtLowered`, `BodyLowered` — lowering of statements under a condition;
* `ProgramLowered` — declarations, parameters and the body of the entry method.

`ExprLowered.of_run` and its companions turn a run into a derivation. Every invariant of lowering is
then an induction on derivations, and its proof does not open the monad.
-/

namespace ScriptGraph

open Lowering

/-! ## Inversion of the monad -/

/-- A bind succeeds exactly if both parts do, the second from where the first ended. -/
theorem Lowering.bind_ok {α β : Type} {x : Lowering α} {f : α → Lowering β} {b b' : Builder}
    {v : β} :
    (x >>= f) b = .ok v b' ↔ ∃ a b₁, x b = .ok a b₁ ∧ f a b₁ = .ok v b' := by
  constructor
  · intro h
    rcases hx : x b with ⟨a, b₁⟩ | ⟨e, b₁⟩
    · refine ⟨a, b₁, rfl, ?_⟩
      simpa only [bind, EStateM.bind, hx] using h
    · simp [bind, EStateM.bind, hx] at h
  · rintro ⟨a, b₁, hx, hf⟩
    simpa only [bind, EStateM.bind, hx] using hf

/-- A refusal is no success. -/
theorem Lowering.throw_ne_ok {α : Type} {e : LoweringError} {b b' : Builder} {v : α} :
    (throw e : Lowering α) b ≠ .ok v b' :=
  fun h => nomatch h

/-- A step whose result is dropped succeeds only if the step does. -/
theorem Lowering.discard_ok {α : Type} {x : Lowering α} {b b' : Builder} {u : PUnit}
    (h : (discard x : Lowering PUnit) b = .ok u b') : ∃ a, x b = .ok a b' := by
  rcases hx : x b with ⟨a, b₁⟩ | ⟨e, b₁⟩
  · simp only [discard, Functor.discard, Functor.mapConst, Function.comp, EStateM.map, hx] at h
    cases h
    exact ⟨a, rfl⟩
  · simp [discard, Functor.discard, Functor.mapConst, EStateM.map, hx] at h

/-! ## Updates of a builder -/

/-- Data connections from wires to the inputs of one target, from `pin` on. -/
def feeds (target : Ref) (pin : Nat) : List Wire → List Connection
  | [] => []
  | w :: ws => .data w.ref w.pin target pin :: feeds target (pin + 1) ws

/-- What `feeds` adds are data connections from the wires to the target. -/
theorem mem_feeds {target : Ref} {pin : Nat} {ws : List Wire} {c : Connection}
    (h : c ∈ feeds target pin ws) :
    c.isExecution = false ∧ c.target = target ∧ ∃ w ∈ ws, c.source = w.ref ∧ c.sourcePin = w.pin := by
  induction ws generalizing pin with
  | nil => simp [feeds] at h
  | cons w ws ih =>
    rcases List.mem_cons.mp h with rfl | h
    · exact ⟨rfl, rfl, w, List.mem_cons_self .., rfl, rfl⟩
    · obtain ⟨he, ht, v, hv, hs⟩ := ih h
      exact ⟨he, ht, v, List.mem_cons_of_mem _ hv, hs⟩

namespace Builder

/-- An id is given. -/
def reserve (b : Builder) : Builder :=
  { b with next := b.next + 1 }

/-- A report is made. -/
def note (b : Builder) (event : Event) : Builder :=
  { b with events := b.events ++ [event] }

/-- A name is bound. -/
def bind (b : Builder) (name : String) (binding : Binding) : Builder :=
  { b with scope := b.scope.insert name binding }

/-- A connection is added. -/
def connect (b : Builder) (c : Connection) : Builder :=
  { b with graph := { b.graph with connections := b.graph.connections ++ [c] } }

/-- A node is added whose id was given before. -/
def addNode (b : Builder) (n : Node) : Builder :=
  { b with
    graph := { b.graph with nodes := b.graph.nodes ++ [n] }
    events := b.events ++ [.nodeMade n.ref n.opcode] }

/-- A literal is added under the next id. -/
def addLiteral (b : Builder) (name : String) (place : Place) (value : Binary32) : Builder :=
  { b with
    graph := { b.graph with literals := b.graph.literals ++ [⟨b.next, name, place, value⟩] }
    next := b.next + 1 }

/-- A node is added under the next id, with all its inputs. -/
def emit (b : Builder) (opcode : Opcode) (place : Place) (linked : Ref) (inputs : List Wire) :
    Builder :=
  { b with
    graph := { b.graph with
      nodes := b.graph.nodes ++ [⟨opcode, b.next, place, linked⟩]
      connections := b.graph.connections ++ feeds b.next 0 inputs }
    next := b.next + 1
    events := b.events ++ [.nodeMade b.next opcode] }

/-- A node is added under the next id that belongs to no variable. -/
def operate (b : Builder) (opcode : Opcode) (place : Place) (inputs : List Wire) : Builder :=
  b.emit opcode place Ref.unlinked inputs

/-- The wire of a binding, read now. -/
def reading (b : Builder) : Binding → Wire
  | .wire wire => wire
  | .parameter type pin => .atPin type Ref.endpoint pin
  | .globalVar type _ => .ofRef type b.next

/-- The builder once a binding is read. -/
def afterReading (b : Builder) : Binding → Builder
  | .wire _ => b
  | .parameter _ _ => b
  | .globalVar _ ref => b.emit Opcode.readGlobal Place.origin ref []

/-- The wire of a conjunction with an outer condition. -/
def conjoined (b : Builder) : Option Wire → Wire → Wire
  | none, inner => inner
  | some _, _ => .ofRef .bool b.next

/-- The builder once a condition is conjoined with an outer one. -/
def afterConjunction (b : Builder) : Option Wire → Wire → Builder
  | none, _ => b
  | some outer, inner => b.operate Opcode.and Place.origin [outer, inner]

/-- The builder once the previous value of a target is at hand. -/
def afterPrevious (b : Builder) (binding : Binding) : Option Wire → Builder
  | some _ => b
  | none => b.afterReading binding

/-- The previous value of a target: the one read for the new value, or else read now. -/
def previousWire (b : Builder) (binding : Binding) : Option Wire → Wire
  | some wire => wire
  | none => b.reading binding

/-- The wire that an assignment leaves behind under a condition. -/
def gatedWire (b : Builder) (binding : Binding) (new : Wire) (previous : Option Wire) :
    Option Wire → Wire
  | none => new
  | some _ => .ofRef new.type (b.afterPrevious binding previous).next

/-- The builder once an assignment's value is gated by a condition. -/
def afterGating (b : Builder) (binding : Binding) (new : Wire) (previous : Option Wire) :
    Option Wire → Builder
  | none => b
  | some condition =>
    (b.afterPrevious binding previous).operate Opcode.select (placeFor new.isPublic)
      [condition, new, b.previousWire binding previous]

/-- The end of the chain of execution once a value is stored. -/
def storedLast (b : Builder) (last : Ref) : Binding → Ref
  | .globalVar _ _ => b.next
  | _ => last

/-- The builder once a value is stored. -/
def afterStore (b : Builder) (name : String) (value : Wire) (last : Ref) : Binding → Builder
  | .globalVar _ ref =>
    (b.emit Opcode.writeGlobal Place.globalWrite ref [value]).connect (.execution last b.next)
  | _ => b.bind name (.wire value)

/-- The builder once a global variable is declared. -/
def declareGlobal (b : Builder) (name : String) (type : ValueType) (default : String) : Builder :=
  { b with
    graph := { b.graph with
      globals := b.graph.globals ++ [⟨name, b.next, type.recordName, default⟩] }
    scope := b.scope.insert name (.globalVar type b.next)
    next := b.next + 1
    events := b.events ++ [.globalDeclared name b.next] }

/-- The builder once the method has one more input. -/
def addInput (b : Builder) (name : String) (type : ValueType) (pin : Nat) : Builder :=
  { b with
    graph := { b.graph with inputs := b.graph.inputs ++ [{ name := name }] }
    scope := b.scope.insert name (.parameter type pin) }

/-- The builder once there is an output `index`, if there was one before it. -/
def ensureOutput (b : Builder) (index : Nat) : Builder :=
  { b with graph :=
      if b.graph.outputs.length ≤ index then
        { b.graph with outputs := b.graph.outputs ++ [{ name := toString (index + 1) }] }
      else b.graph }

/-! An output of the method touches no other part of the graph. -/

@[simp]
theorem ensureOutput_inputs (b : Builder) (index : Nat) :
    (b.ensureOutput index).graph.inputs = b.graph.inputs := by
  by_cases h : b.graph.outputs.length ≤ index <;> simp [ensureOutput, h]

@[simp]
theorem ensureOutput_globals (b : Builder) (index : Nat) :
    (b.ensureOutput index).graph.globals = b.graph.globals := by
  by_cases h : b.graph.outputs.length ≤ index <;> simp [ensureOutput, h]

@[simp]
theorem ensureOutput_nodes (b : Builder) (index : Nat) :
    (b.ensureOutput index).graph.nodes = b.graph.nodes := by
  by_cases h : b.graph.outputs.length ≤ index <;> simp [ensureOutput, h]

@[simp]
theorem ensureOutput_literals (b : Builder) (index : Nat) :
    (b.ensureOutput index).graph.literals = b.graph.literals := by
  by_cases h : b.graph.outputs.length ≤ index <;> simp [ensureOutput, h]

@[simp]
theorem ensureOutput_connections (b : Builder) (index : Nat) :
    (b.ensureOutput index).graph.connections = b.graph.connections := by
  by_cases h : b.graph.outputs.length ≤ index <;> simp [ensureOutput, h]

/-- The output that was asked for is there, if the one before it was. -/
theorem lt_ensureOutput_outputs {b : Builder} {index : Nat} (h : index ≤ b.graph.outputs.length) :
    index < (b.ensureOutput index).graph.outputs.length ∧
      b.graph.outputs.length ≤ (b.ensureOutput index).graph.outputs.length := by
  by_cases hl : b.graph.outputs.length ≤ index
  · simp only [ensureOutput, if_pos hl, List.length_append, List.length_singleton]
    omega
  · simp only [ensureOutput, if_neg hl]
    omega

end Builder

/-! ### The steps that always succeed -/

theorem currentValue_run (binding : Binding) (b : Builder) :
    currentValue binding b = .ok (b.reading binding) (b.afterReading binding) := by
  cases binding with
  | wire wire => rfl
  | parameter type pin => rfl
  | globalVar type ref =>
    have h : b.graph.connections ++ feeds b.next 0 [] = b.graph.connections := by
      simp [feeds]
    simp only [Builder.reading, Builder.afterReading, Builder.emit, h]
    rfl

theorem conjunction_run (outer : Option Wire) (inner : Wire) (b : Builder) :
    conjunction outer inner b =
      .ok (b.conjoined outer inner) (b.afterConjunction outer inner) := by
  cases outer with
  | none => rfl
  | some outer =>
    have h : b.graph.connections ++ feeds b.next 0 [outer, inner] =
        b.graph.connections ++ [.data outer.ref outer.pin b.next 0] ++
          [.data inner.ref inner.pin b.next 1] := by
      simp [feeds]
    simp only [Builder.conjoined, Builder.afterConjunction, Builder.operate, Builder.emit, h]
    rfl

theorem select_run (condition new previous : Wire) (b : Builder) :
    select condition new previous b =
      .ok (.ofRef new.type b.next)
        (b.operate Opcode.select (placeFor new.isPublic) [condition, new, previous]) := by
  have h : b.graph.connections ++ feeds b.next 0 [condition, new, previous] =
      b.graph.connections ++ [.data condition.ref condition.pin b.next 0] ++
        [.data new.ref new.pin b.next 1] ++ [.data previous.ref previous.pin b.next 2] := by
    simp [feeds]
  simp only [Builder.operate, Builder.emit, h]
  rfl

theorem gated_run (condition : Option Wire) (binding : Binding) (new : Wire)
    (previous : Option Wire) (b : Builder) :
    gated condition binding new previous b =
      .ok (b.gatedWire binding new previous condition)
        (b.afterGating binding new previous condition) := by
  cases condition with
  | none => rfl
  | some condition =>
    cases previous with
    | some previous => exact select_run condition new previous b
    | none =>
      rw [gated, Lowering.bind_ok]
      exact ⟨_, _, currentValue_run binding b, select_run condition new _ _⟩

theorem store_run (name : String) (binding : Binding) (value : Wire) (last : Ref) (b : Builder) :
    store name binding value last b =
      .ok (b.storedLast last binding) (b.afterStore name value last binding) := by
  cases binding <;> rfl

/-! ## Expressions -/

mutual

/-- `ExprLowered t e b w b'` says that lowering the expression `e` took the builder `b` to `b'` and
yielded the wire `w`, with the table of builtins `t`. -/
inductive ExprLowered (t : Builtins) : Expr → Builder → Wire → Builder → Prop where
  /-- a number is a literal -/
  | number (value : Binary32) (b : Builder) :
      ExprLowered t (.number value) b (.ofRef .float b.next)
        ((b.addLiteral "Value" Place.origin value).note (.literalMade b.next value))
  /-- a bound name is read -/
  | bound {name : Name} {b : Builder} {binding : Binding}
      (hb : b.scope.get? name.text = some binding) :
      ExprLowered t (.var name) b (b.reading binding) (b.afterReading binding)
  /-- a name that is not bound is a constant of the runtime -/
  | constant {name : Name} {b : Builder} {opcode : Opcode}
      (hb : b.scope.get? name.text = none) (ho : t.constant? name.text = some opcode) :
      ExprLowered t (.var name) b (.ofRef .builtin b.next) (b.operate opcode Place.origin [])
  /-- a change of sign -/
  | neg {inner : Expr} {b b₁ : Builder} {w : Wire} (h : ExprLowered t inner b w b₁) :
      ExprLowered t (.neg inner) b (.ofRef .bool b₁.next)
        (b₁.operate Opcode.negate (placeFor w.isPublic) [w])
  /-- a logical negation -/
  | not {inner : Expr} {b b₁ : Builder} {w : Wire} (h : ExprLowered t inner b w b₁) :
      ExprLowered t (.not inner) b (.ofRef .bool b₁.next)
        (b₁.operate Opcode.not (placeFor w.isPublic) [w])
  /-- an operator, in the variant for its operands -/
  | binary {op : BinaryOp} {left right : Expr} {b b₁ b₂ : Builder} {l r : Wire} {opcode : Opcode}
      (hl : ExprLowered t left b l b₁) (hr : ExprLowered t right b₁ r b₂)
      (ho : t.operator? op.symbol (isVectorOp l.type r.type) = some opcode) :
      ExprLowered t (.binary op left right) b (.ofRef (binaryType l.type r.type) b₂.next)
        (b₂.operate opcode (placeFor (l.isPublic || r.isPublic)) [l, r])
  /-- a component of a bound name; the arguments are not looked at -/
  | component {receiver member : Name} {args : List Expr} {b : Builder} {binding : Binding}
      {pin : Nat} (hb : b.scope.get? receiver.text = some binding)
      (hp : componentPin? member.text = some pin) :
      ExprLowered t (.call receiver member args) b
        (.atPin .float (b.afterReading binding).next pin)
        ((b.afterReading binding).operate
          (if (b.reading binding).type = .vector3 then Opcode.splitVector3
            else Opcode.splitVector2)
          (placeFor (b.reading binding).isPublic) [b.reading binding])
  /-- a function of the runtime: its id is given before its arguments are lowered -/
  | function {receiver member : Name} {args : List Expr} {b b₁ : Builder} {opcode : Opcode}
      {ws : List Wire} (hb : b.scope.get? receiver.text = none)
      (ho : t.member? receiver.text member.text = some opcode)
      (ha : ArgsLowered t b.next 0 args b.reserve ws b₁) :
      ExprLowered t (.call receiver member args) b
        (.ofRef (Builtins.resultType member.text) b.next)
        (b₁.addNode ⟨opcode, b.next, placeFor (ws.any (·.isPublic)), Ref.unlinked⟩)
  /-- a vector made of its components, like a function -/
  | construct {type : Name} {args : List Expr} {b b₁ : Builder} {opcode : Opcode}
      {valueType : ValueType} {ws : List Wire}
      (ho : constructor? type.text = some (opcode, valueType))
      (ha : ArgsLowered t b.next 0 args b.reserve ws b₁) :
      ExprLowered t (.construct type args) b (.ofRef valueType b.next)
        (b₁.addNode ⟨opcode, b.next, placeFor (ws.any (·.isPublic)), Ref.unlinked⟩)

/-- `ArgsLowered t target pin args b ws b'` says that lowering the arguments took the builder `b` to
`b'` and carried the wires `ws` to the inputs of `target` from `pin` on. -/
inductive ArgsLowered (t : Builtins) :
    Ref → Nat → List Expr → Builder → List Wire → Builder → Prop where
  | nil (target : Ref) (pin : Nat) (b : Builder) : ArgsLowered t target pin [] b [] b
  | cons {target : Ref} {pin : Nat} {arg : Expr} {args : List Expr} {b b₁ b₂ : Builder} {w : Wire}
      {ws : List Wire} (h : ExprLowered t arg b w b₁)
      (hs : ArgsLowered t target (pin + 1) args
        (b₁.connect (.data w.ref w.pin target pin)) ws b₂) :
      ArgsLowered t target pin (arg :: args) b (w :: ws) b₂

end

/-- What a successful operator between two wires did. -/
theorem binary_ok {t : Builtins} {op : BinaryOp} {l r w : Wire} {b b' : Builder}
    (h : Lowering.binary t op l r b = .ok w b') :
    ∃ opcode, t.operator? op.symbol (isVectorOp l.type r.type) = some opcode ∧
      w = .ofRef (binaryType l.type r.type) b.next ∧
      b' = b.operate opcode (placeFor (l.isPublic || r.isPublic)) [l, r] := by
  rw [Lowering.binary] at h
  rcases ho : t.operator? op.symbol (isVectorOp l.type r.type) with _ | opcode
  · rw [ho] at h
    exact absurd h throw_ne_ok
  · rw [ho] at h
    refine ⟨opcode, rfl, ?_⟩
    have hc : b.graph.connections ++ feeds b.next 0 [l, r] =
        b.graph.connections ++ [.data l.ref l.pin b.next 0] ++ [.data r.ref r.pin b.next 1] := by
      simp [feeds]
    simp only [Builder.operate, Builder.emit, hc]
    cases h
    exact ⟨rfl, rfl⟩

/-- What a successful component did. -/
theorem component_ok {t : Builtins} {receiver member : Name} {args : List Expr} {binding : Binding}
    {b b' : Builder} {w : Wire} (hb : b.scope.get? receiver.text = some binding)
    (h : Lowering.component receiver member binding b = .ok w b') :
    ExprLowered t (.call receiver member args) b w b' := by
  rw [Lowering.component] at h
  rcases hp : componentPin? member.text with _ | pin
  · rw [hp] at h
    exact absurd h throw_ne_ok
  · rw [hp] at h
    obtain ⟨value, b₁, h₁, h₂⟩ := bind_ok.mp h
    rw [currentValue_run] at h₁
    cases h₁
    cases h₂
    exact .component hb hp

/-- What a successful look-up of a name did. -/
theorem namedValue_ok {t : Builtins} {name : Name} {b b' : Builder} {w : Wire}
    (h : namedValue t name b = .ok w b') : ExprLowered t (.var name) b w b' := by
  rw [namedValue] at h
  obtain ⟨found, b₁, h₁, h₂⟩ := bind_ok.mp h
  cases h₁
  rcases hb : b.scope.get? name.text with _ | binding
  · rw [hb] at h₂
    rcases ho : t.constant? name.text with _ | opcode
    · rw [ho] at h₂
      exact absurd h₂ throw_ne_ok
    · rw [ho] at h₂
      have hc : b.graph.connections ++ feeds b.next 0 [] = b.graph.connections := by
        simp [feeds]
      have hd := ExprLowered.constant hb ho
      simp only [Builder.operate, Builder.emit, hc] at hd
      cases h₂
      exact hd
  · rw [hb] at h₂
    have hr : currentValue binding b = .ok w b' := h₂
    rw [currentValue_run] at hr
    cases hr
    exact .bound hb

mutual

/-- A successful lowering of an expression has a derivation. -/
theorem ExprLowered.of_run {t : Builtins} :
    ∀ (e : Expr) {b b' : Builder} {w : Wire},
      Lowering.expr t e b = .ok w b' → ExprLowered t e b w b'
  | .number value, b, b', w, h => by
    cases h
    exact .number value b
  | .var name, b, b', w, h => by
    rw [Lowering.expr] at h
    exact namedValue_ok h
  | .neg inner, b, b', w, h => by
    rw [Lowering.expr] at h
    obtain ⟨v, b₁, h₁, h₂⟩ := bind_ok.mp h
    cases h₂
    exact .neg (ExprLowered.of_run inner h₁)
  | .not inner, b, b', w, h => by
    rw [Lowering.expr] at h
    obtain ⟨v, b₁, h₁, h₂⟩ := bind_ok.mp h
    cases h₂
    exact .not (ExprLowered.of_run inner h₁)
  | .binary op left right, b, b', w, h => by
    rw [Lowering.expr] at h
    obtain ⟨l, b₁, h₁, h⟩ := bind_ok.mp h
    obtain ⟨r, b₂, h₂, h⟩ := bind_ok.mp h
    obtain ⟨opcode, ho, rfl, rfl⟩ := binary_ok h
    exact .binary (ExprLowered.of_run left h₁) (ExprLowered.of_run right h₂) ho
  | .call receiver member args, b, b', w, h => by
    rw [Lowering.expr] at h
    obtain ⟨found, b₁, h₁, h⟩ := bind_ok.mp h
    cases h₁
    rcases hb : b.scope.get? receiver.text with _ | binding
    · rw [hb] at h
      rcases ho : t.member? receiver.text member.text with _ | opcode
      · rw [ho] at h
        exact absurd h throw_ne_ok
      · rw [ho] at h
        -- the id is given first, then the arguments are lowered, and the node comes last
        obtain ⟨ref, b₁, h₁, h⟩ := bind_ok.mp h
        cases h₁
        obtain ⟨readsPublic, b₂, h₂, h⟩ := bind_ok.mp h
        obtain ⟨ws, ha, rfl⟩ := ArgsLowered.of_run args h₂
        cases h
        exact .function hb ho ha
    · rw [hb] at h
      exact component_ok hb h
  | .construct type args, b, b', w, h => by
    rw [Lowering.expr] at h
    rcases ho : constructor? type.text with _ | ⟨opcode, valueType⟩
    · rw [ho] at h
      exact absurd h throw_ne_ok
    · rw [ho] at h
      obtain ⟨ref, b₁, h₁, h⟩ := bind_ok.mp h
      cases h₁
      obtain ⟨readsPublic, b₂, h₂, h⟩ := bind_ok.mp h
      obtain ⟨ws, ha, rfl⟩ := ArgsLowered.of_run args h₂
      cases h
      exact .construct ho ha

/-- A successful lowering of arguments has a derivation, and yields whether one of them is public. -/
theorem ArgsLowered.of_run {t : Builtins} {target : Ref} :
    ∀ (args : List Expr) {pin : Nat} {b b' : Builder} {readsPublic : Bool},
      Lowering.arguments t target pin args b = .ok readsPublic b' →
        ∃ ws, ArgsLowered t target pin args b ws b' ∧ readsPublic = ws.any (·.isPublic)
  | [], pin, b, b', readsPublic, h => by
    cases h
    exact ⟨[], .nil target pin b, rfl⟩
  | arg :: args, pin, b, b', readsPublic, h => by
    rw [Lowering.arguments] at h
    obtain ⟨w, b₁, h₁, h⟩ := bind_ok.mp h
    obtain ⟨u, b₂, h₂, h⟩ := bind_ok.mp h
    cases h₂
    obtain ⟨others, b₃, h₃, h⟩ := bind_ok.mp h
    obtain ⟨ws, ha, rfl⟩ := ArgsLowered.of_run args h₃
    cases h
    exact ⟨w :: ws, .cons (ExprLowered.of_run arg h₁) ha, rfl⟩

end

theorem Builder.scope_afterReading (b : Builder) (binding : Binding) :
    (b.afterReading binding).scope = b.scope := by
  cases binding <;> rfl

mutual

/-- An expression binds nothing. -/
theorem ExprLowered.scope_eq {t : Builtins} {e : Expr} {b b' : Builder} {w : Wire}
    (h : ExprLowered t e b w b') : b'.scope = b.scope := by
  cases h with
  | number value b => rfl
  | bound hb => exact b.scope_afterReading _
  | constant hb ho => rfl
  | neg h => exact h.scope_eq
  | not h => exact h.scope_eq
  | binary hl hr ho => exact hr.scope_eq.trans hl.scope_eq
  | component hb hp => exact b.scope_afterReading _
  | function hb ho ha => exact ha.scope_eq
  | construct ho ha => exact ha.scope_eq

/-- Nor do arguments. -/
theorem ArgsLowered.scope_eq {t : Builtins} {target : Ref} {pin : Nat} {args : List Expr}
    {b b' : Builder} {ws : List Wire} (h : ArgsLowered t target pin args b ws b') :
    b'.scope = b.scope := by
  cases h with
  | nil => rfl
  | cons h hs => exact hs.scope_eq.trans h.scope_eq

end

/-! ## Statements -/

/-- `AssignedLowered t binding op e b new previous b'` says that lowering the right-hand side of an
assignment took the builder `b` to `b'`, with the new value and the value read for it. -/
inductive AssignedLowered (t : Builtins) (binding : Binding) :
    AssignOp → Expr → Builder → Wire → Option Wire → Builder → Prop where
  | plain {op : AssignOp} {e : Expr} {b b₁ : Builder} {new : Wire} (hop : op.binaryOp? = none)
      (he : ExprLowered t e b new b₁) : AssignedLowered t binding op e b new none b₁
  | compound {op : AssignOp} {bop : BinaryOp} {e : Expr} {b b₁ : Builder} {operand : Wire}
      {opcode : Opcode} (hop : op.binaryOp? = some bop)
      (he : ExprLowered t e (b.afterReading binding) operand b₁)
      (ho : t.operator? bop.symbol (isVectorOp (b.reading binding).type operand.type) =
        some opcode) :
      AssignedLowered t binding op e b
        (.ofRef (binaryType (b.reading binding).type operand.type) b₁.next)
        (some (b.reading binding))
        (b₁.operate opcode (placeFor ((b.reading binding).isPublic || operand.isPublic))
          [b.reading binding, operand])

/-- `OutputsLowered t index values b b'` says that the values were carried to the outputs of the
method from `index` on. -/
inductive OutputsLowered (t : Builtins) : Nat → List Expr → Builder → Builder → Prop where
  | nil (index : Nat) (b : Builder) : OutputsLowered t index [] b b
  | cons {index : Nat} {value : Expr} {values : List Expr} {b b₁ b₂ : Builder} {w : Wire}
      (h : ExprLowered t value b w b₁)
      (hs : OutputsLowered t (index + 1) values
        ((b₁.ensureOutput index).connect (.data w.ref w.pin Ref.endpoint index)) b₂) :
      OutputsLowered t index (value :: values) b b₂

mutual

/-- `StmtLowered t condition last s b last' b'` says that lowering the statement `s` under a
condition, behind the node `last` of the chain of execution, took the builder `b` to `b'` and the end
of the chain to `last'`. -/
inductive StmtLowered (t : Builtins) :
    Option Wire → Ref → Stmt → Builder → Ref → Builder → Prop where
  /-- a public declaration is a literal -/
  | declarePublic {condition : Option Wire} {last : Ref} {d : Declaration} {span : Span}
      {b : Builder} {type : ValueType} (hp : d.isPublic = true) (hi : d.init = none)
      (ht : ValueType.ofName? d.type = some type) :
      StmtLowered t condition last (.declare d span) b last
        ((b.addLiteral d.name.text Place.publicValue (.ofInt 0)).bind d.name.text
          (.wire (.ofPublic type b.next)))
  /-- another declaration stands for its initial value -/
  | declare {condition : Option Wire} {last : Ref} {d : Declaration} {span : Span} {init : Expr}
      {b b₁ : Builder} {w : Wire} (hp : d.isPublic = false) (hi : d.init = some init)
      (he : ExprLowered t init b w b₁) :
      StmtLowered t condition last (.declare d span) b last (b₁.bind d.name.text (.wire w))
  /-- an assignment: the new value, the gate, the store -/
  | assign {condition : Option Wire} {last : Ref} {target : Name} {op : AssignOp} {value : Expr}
      {span : Span} {b b₁ : Builder} {binding : Binding} {new : Wire} {previous : Option Wire}
      (hb : b.scope.get? target.text = some binding)
      (ha : AssignedLowered t binding op value b new previous b₁) :
      StmtLowered t condition last (.assign target op value span) b
        ((b₁.afterGating binding new previous condition).storedLast last binding)
        ((b₁.afterGating binding new previous condition).afterStore target.text
          (b₁.gatedWire binding new previous condition) last binding)
  /-- a choice with one body -/
  | branch {condition : Option Wire} {last last₁ : Ref} {test : Expr} {thenBody : List Stmt}
      {span : Span} {b b₁ b₂ : Builder} {w : Wire} (he : ExprLowered t test b w b₁)
      (ht : BodyLowered t (some (b₁.conjoined condition w)) last thenBody
        (b₁.afterConjunction condition w) last₁ b₂) :
      StmtLowered t condition last (.branch test thenBody none span) b last₁ b₂
  /-- a choice with two bodies -/
  | branchElse {condition : Option Wire} {last last₁ last₂ : Ref} {test : Expr}
      {thenBody elseBody : List Stmt} {span : Span} {b b₁ b₂ b₃ b₄ : Builder} {w : Wire}
      (he : ExprLowered t test b w b₁)
      (ht : BodyLowered t (some (b₁.conjoined condition w)) last thenBody
        (b₁.afterConjunction condition w) last₁ b₂)
      (hn : b₃ = b₂.operate Opcode.not (placeFor w.isPublic) [w])
      (hf : BodyLowered t (some (b₃.conjoined condition (.ofRef .bool b₂.next))) last₁ elseBody
        (b₃.afterConjunction condition (.ofRef .bool b₂.next)) last₂ b₄) :
      StmtLowered t condition last (.branch test thenBody (some elseBody) span) b last₂ b₄
  /-- a return closes the chain -/
  | ret {condition : Option Wire} {last : Ref} {values : List Expr} {span : Span} {b b₁ : Builder}
      (h : OutputsLowered t 0 values b b₁) :
      StmtLowered t condition last (.ret values span) b Ref.endpoint
        (b₁.connect (.execution last Ref.endpoint))
  /-- a call whose result is dropped -/
  | call {condition : Option Wire} {last : Ref} {receiver member : Name} {args : List Expr}
      {span : Span} {b b₁ : Builder} {w : Wire}
      (h : ExprLowered t (.call receiver member args) b w b₁) :
      StmtLowered t condition last (.call receiver member args span) b last b₁

/-- `BodyLowered t condition last body b last' b'` is the same for statements one after another; a
return is the last of them. -/
inductive BodyLowered (t : Builtins) :
    Option Wire → Ref → List Stmt → Builder → Ref → Builder → Prop where
  | nil (condition : Option Wire) (last : Ref) (b : Builder) :
      BodyLowered t condition last [] b last b
  | cons {condition : Option Wire} {last last₁ last₂ : Ref} {s : Stmt} {rest : List Stmt}
      {b b₁ b₂ : Builder} (h : StmtLowered t condition last s b last₁ b₁)
      (hr : s.isReturn = true → rest = []) (hs : BodyLowered t condition last₁ rest b₁ last₂ b₂) :
      BodyLowered t condition last (s :: rest) b last₂ b₂

end

/-- What a successful declaration did. -/
theorem declare_ok {t : Builtins} {condition : Option Wire} {last : Ref} {d : Declaration}
    {span : Span} {b b' : Builder} {u : Unit} (h : Lowering.declare t d b = .ok u b') :
    StmtLowered t condition last (.declare d span) b last b' := by
  rw [Lowering.declare] at h
  rcases hp : d.isPublic with _ | _
  · rw [hp] at h
    rcases hi : d.init with _ | init
    · rw [hi] at h
      exact absurd h throw_ne_ok
    · rw [hi] at h
      obtain ⟨w, b₁, h₁, h₂⟩ := bind_ok.mp h
      cases h₂
      exact .declare hp hi (ExprLowered.of_run init h₁)
  · rw [hp] at h
    rcases hi : d.init with _ | init
    · rw [hi] at h
      obtain ⟨type, b₁, h₁, h₂⟩ := bind_ok.mp h
      rw [declaredType] at h₁
      rcases ht : ValueType.ofName? d.type with _ | type
      · rw [ht] at h₁
        exact absurd h₁ throw_ne_ok
      · rw [ht] at h₁
        cases h₁
        cases h₂
        exact .declarePublic hp hi ht
    · rw [hi] at h
      exact absurd h throw_ne_ok

/-- What the successful right-hand side of an assignment did. -/
theorem assignedValue_ok {t : Builtins} {binding : Binding} {op : AssignOp} {value : Expr}
    {b b' : Builder} {new : Wire} {previous : Option Wire}
    (h : assignedValue t binding op value b = .ok (new, previous) b') :
    AssignedLowered t binding op value b new previous b' := by
  rw [assignedValue] at h
  rcases hop : op.binaryOp? with _ | bop
  · rw [hop] at h
    obtain ⟨w, b₁, h₁, h₂⟩ := bind_ok.mp h
    cases h₂
    exact .plain hop (ExprLowered.of_run value h₁)
  · rw [hop] at h
    obtain ⟨current, b₁, h₁, h⟩ := bind_ok.mp h
    rw [currentValue_run] at h₁
    cases h₁
    obtain ⟨operand, b₂, h₂, h⟩ := bind_ok.mp h
    obtain ⟨w, b₃, h₃, h⟩ := bind_ok.mp h
    obtain ⟨opcode, ho, rfl, rfl⟩ := binary_ok h₃
    cases h
    exact .compound hop (ExprLowered.of_run value h₂) ho

/-- The parts of a successful assignment. -/
theorem assign_parts_ok {t : Builtins} {condition : Option Wire} {last last' : Ref} {target : Name}
    {op : AssignOp} {value : Expr} {b b' : Builder}
    (h : Lowering.assign t target op value condition last b = .ok last' b') :
    ∃ binding new previous b₁, b.scope.get? target.text = some binding ∧
      assignedValue t binding op value b = .ok (new, previous) b₁ ∧
      last' = (b₁.afterGating binding new previous condition).storedLast last binding ∧
      b' = (b₁.afterGating binding new previous condition).afterStore target.text
        (b₁.gatedWire binding new previous condition) last binding := by
  rw [Lowering.assign] at h
  obtain ⟨found, b₁, h₁, h⟩ := bind_ok.mp h
  cases h₁
  rcases hb : b.scope.get? target.text with _ | binding
  · rw [hb] at h
    exact absurd h throw_ne_ok
  · rw [hb] at h
    obtain ⟨⟨new, previous⟩, b₁, h₁, h⟩ := bind_ok.mp h
    obtain ⟨kept, b₂, h₂, h⟩ := bind_ok.mp h
    rw [gated_run] at h₂
    cases h₂
    rw [store_run] at h
    cases h
    exact ⟨binding, new, previous, b₁, rfl, h₁, rfl, rfl⟩

/-- What a successful assignment did. -/
theorem assign_ok {t : Builtins} {condition : Option Wire} {last last' : Ref} {target : Name}
    {op : AssignOp} {value : Expr} {span : Span} {b b' : Builder}
    (h : Lowering.assign t target op value condition last b = .ok last' b') :
    StmtLowered t condition last (.assign target op value span) b last' b' := by
  obtain ⟨binding, new, previous, b₁, hb, h₁, rfl, rfl⟩ := assign_parts_ok h
  exact .assign hb (assignedValue_ok h₁)

/-- A successful lowering of outputs has a derivation. -/
theorem OutputsLowered.of_run {t : Builtins} :
    ∀ (values : List Expr) {index : Nat} {b b' : Builder} {u : Unit},
      Lowering.outputs t index values b = .ok u b' → OutputsLowered t index values b b'
  | [], index, b, b', u, h => by
    cases h
    exact .nil index b
  | value :: values, index, b, b', u, h => by
    rw [Lowering.outputs] at h
    obtain ⟨w, b₁, h₁, h⟩ := bind_ok.mp h
    obtain ⟨_, b₂, h₂, h⟩ := bind_ok.mp h
    cases h₂
    obtain ⟨_, b₃, h₃, h⟩ := bind_ok.mp h
    cases h₃
    exact .cons (ExprLowered.of_run value h₁) (OutputsLowered.of_run values h)

mutual

/-- A successful lowering of a statement has a derivation. -/
theorem StmtLowered.of_run {t : Builtins} :
    ∀ (s : Stmt) {condition : Option Wire} {last last' : Ref} {b b' : Builder},
      Lowering.stmt t condition last s b = .ok last' b' →
        StmtLowered t condition last s b last' b'
  | .declare d span, condition, last, last', b, b', h => by
    rw [Lowering.stmt] at h
    obtain ⟨u, b₁, h₁, h⟩ := bind_ok.mp h
    cases h
    exact declare_ok h₁
  | .assign target op value span, condition, last, last', b, b', h => by
    rw [Lowering.stmt] at h
    exact assign_ok h
  | .branch test thenBody elseBody span, condition, last, last', b, b', h => by
    rw [Lowering.stmt] at h
    obtain ⟨w, b₁, h₁, h⟩ := bind_ok.mp h
    obtain ⟨whenTrue, b₂, h₂, h⟩ := bind_ok.mp h
    rw [conjunction_run] at h₂
    cases h₂
    obtain ⟨last₁, b₃, h₃, h⟩ := bind_ok.mp h
    have ht := BodyLowered.of_run thenBody h₃
    cases elseBody with
    | none =>
      cases h
      exact .branch (ExprLowered.of_run test h₁) ht
    | some elseBody =>
      obtain ⟨negated, b₄, h₄, h⟩ := bind_ok.mp h
      cases h₄
      obtain ⟨whenFalse, b₅, h₅, h⟩ := bind_ok.mp h
      rw [conjunction_run] at h₅
      cases h₅
      exact .branchElse (ExprLowered.of_run test h₁) ht rfl (BodyLowered.of_run elseBody h)
  | .ret values span, condition, last, last', b, b', h => by
    rw [Lowering.stmt] at h
    obtain ⟨u, b₁, h₁, h⟩ := bind_ok.mp h
    cases h
    exact .ret (OutputsLowered.of_run values h₁)
  | .call receiver member args span, condition, last, last', b, b', h => by
    rw [Lowering.stmt] at h
    obtain ⟨u, b₁, h₁, h⟩ := bind_ok.mp h
    cases h
    obtain ⟨w, hw⟩ := discard_ok h₁
    exact .call (ExprLowered.of_run _ hw)

/-- A successful lowering of a body has a derivation. -/
theorem BodyLowered.of_run {t : Builtins} :
    ∀ (body : List Stmt) {condition : Option Wire} {last last' : Ref} {b b' : Builder},
      Lowering.body t condition last body b = .ok last' b' →
        BodyLowered t condition last body b last' b'
  | [], condition, last, last', b, b', h => by
    cases h
    exact .nil condition last b
  | s :: rest, condition, last, last', b, b', h => by
    rw [Lowering.body] at h
    obtain ⟨last₁, b₁, h₁, h⟩ := bind_ok.mp h
    have hs := StmtLowered.of_run s h₁
    cases rest with
    | nil =>
      have hr : Lowering.body t condition last₁ [] b₁ = .ok last' b' := by
        cases s <;> exact h
      exact .cons hs (fun _ => rfl) (BodyLowered.of_run [] hr)
    | cons next rest =>
      -- something follows, so a return is refused and every other statement goes on
      cases s with
      | ret values span => exact absurd h throw_ne_ok
      | declare d span => exact .cons hs nofun (BodyLowered.of_run (next :: rest) h)
      | assign target op value span => exact .cons hs nofun (BodyLowered.of_run (next :: rest) h)
      | branch test thenBody elseBody span =>
        exact .cons hs nofun (BodyLowered.of_run (next :: rest) h)
      | call receiver member args span =>
        exact .cons hs nofun (BodyLowered.of_run (next :: rest) h)

end

section

variable {t : Builtins} {condition : Option Wire} {last last' : Ref} {b b' : Builder}

/-- What a successful choice did. -/
theorem branch_ok {test : Expr} {thenBody : List Stmt} {elseBody : Option (List Stmt)} {span : Span}
    (h : stmt t condition last (.branch test thenBody elseBody span) b = .ok last' b') :
    ∃ w b₁ last₁ b₂, expr t test b = .ok w b₁ ∧
      Lowering.body t (some (b₁.conjoined condition w)) last thenBody
        (b₁.afterConjunction condition w) = .ok last₁ b₂ ∧
      match elseBody with
      | none => last' = last₁ ∧ b' = b₂
      | some elseBody =>
        let b₃ := b₂.operate Opcode.not (placeFor w.isPublic) [w]
        Lowering.body t (some (b₃.conjoined condition (.ofRef .bool b₂.next))) last₁ elseBody
          (b₃.afterConjunction condition (.ofRef .bool b₂.next)) = .ok last' b' := by
  rw [stmt] at h
  obtain ⟨w, b₁, h₁, h⟩ := bind_ok.mp h
  obtain ⟨whenTrue, b₂, h₂, h⟩ := bind_ok.mp h
  rw [conjunction_run] at h₂
  cases h₂
  obtain ⟨last₁, b₃, h₃, h⟩ := bind_ok.mp h
  refine ⟨w, b₁, last₁, b₃, h₁, h₃, ?_⟩
  cases elseBody with
  | none =>
    cases h
    exact ⟨rfl, rfl⟩
  | some elseBody =>
    obtain ⟨negated, b₄, h₄, h⟩ := bind_ok.mp h
    cases h₄
    obtain ⟨whenFalse, b₅, h₅, h⟩ := bind_ok.mp h
    rw [conjunction_run] at h₅
    cases h₅
    exact h

/-- What successful statements one after another did. -/
theorem body_cons_ok {s : Stmt} {rest : List Stmt}
    (h : Lowering.body t condition last (s :: rest) b = .ok last' b') :
    ∃ last₁ b₁, stmt t condition last s b = .ok last₁ b₁ ∧
      Lowering.body t condition last₁ rest b₁ = .ok last' b' := by
  rw [Lowering.body] at h
  obtain ⟨last₁, b₁, h₁, h⟩ := bind_ok.mp h
  refine ⟨last₁, b₁, h₁, ?_⟩
  cases s <;> cases rest <;> first | exact h | exact absurd h throw_ne_ok

end

/-! The parts of statements that bind nothing. -/

theorem Builder.scope_afterConjunction (b : Builder) (outer : Option Wire) (inner : Wire) :
    (b.afterConjunction outer inner).scope = b.scope := by
  cases outer <;> rfl

theorem Builder.scope_afterGating (b : Builder) (binding : Binding) (new : Wire)
    (previous condition : Option Wire) :
    (b.afterGating binding new previous condition).scope = b.scope := by
  rcases condition with _ | condition
  · rfl
  · rcases previous with _ | previous
    · exact b.scope_afterReading binding
    · rfl

theorem AssignedLowered.scope_eq {t : Builtins} {binding : Binding} {op : AssignOp} {e : Expr}
    {b b' : Builder} {new : Wire} {previous : Option Wire}
    (h : AssignedLowered t binding op e b new previous b') : b'.scope = b.scope := by
  cases h with
  | plain hop he => exact he.scope_eq
  | compound hop he ho => exact he.scope_eq.trans (b.scope_afterReading binding)

theorem OutputsLowered.scope_eq {t : Builtins} {index : Nat} {values : List Expr} {b b' : Builder}
    (h : OutputsLowered t index values b b') : b'.scope = b.scope := by
  induction h with
  | nil index b => rfl
  | cons h hs ih => exact ih.trans h.scope_eq

/-! ## Programs -/

/-- `GlobalsLowered ds b b'` says that the declarations of global variables took `b` to `b'`. -/
inductive GlobalsLowered : List Declaration → Builder → Builder → Prop where
  | nil (b : Builder) : GlobalsLowered [] b b
  | cons {d : Declaration} {ds : List Declaration} {b b' : Builder} {type : ValueType}
      {default : String} (ht : ValueType.ofName? d.type = some type)
      (hd : type.defaultText? = some default)
      (hs : GlobalsLowered ds (b.declareGlobal d.name.text type default) b') :
      GlobalsLowered (d :: ds) b b'

/-- `ParamsLowered pin ps b b'` says that the parameters became inputs from `pin` on. -/
inductive ParamsLowered : Nat → List Parameter → Builder → Builder → Prop where
  | nil (pin : Nat) (b : Builder) : ParamsLowered pin [] b b
  | cons {pin : Nat} {p : Parameter} {ps : List Parameter} {b b' : Builder} {type : ValueType}
      (ht : ValueType.ofName? p.type = some type)
      (hs : ParamsLowered (pin + 1) ps (b.addInput p.name.text type pin) b') :
      ParamsLowered pin (p :: ps) b b'

/-- `EntryLowered t m b b'` says that the entry method, if there is one, took `b` to `b'`. -/
inductive EntryLowered (t : Builtins) : Option Method → Builder → Builder → Prop where
  | absent (b : Builder) : EntryLowered t none b b
  | present {m : Method} {b b₁ b₂ : Builder} {last : Ref} (hp : ParamsLowered 0 m.params b b₁)
      (hb : BodyLowered t none Ref.endpoint m.body b₁ last b₂) :
      EntryLowered t (some m) b (b₂.note (.methodDone m.name.text last))

/-- `ProgramLowered t p first g` says that `g` is the graph of `p`: global variables first, then the
entry method, then the counter. -/
inductive ProgramLowered (t : Builtins) (p : Program) (first : Ref) : Graph → Prop where
  | intro {b₁ b₂ : Builder} (hg : GlobalsLowered p.globals (Builder.start first) b₁)
      (he : EntryLowered t p.entry? b₁ b₂) :
      ProgramLowered t p first { b₂.graph with counter := b₂.next }

/-- A successful declaration of global variables has a derivation. -/
theorem GlobalsLowered.of_run :
    ∀ (ds : List Declaration) {b b' : Builder} {u : Unit},
      declareGlobals ds b = .ok u b' → GlobalsLowered ds b b'
  | [], b, b', u, h => by
    cases h
    exact .nil b
  | d :: ds, b, b', u, h => by
    rw [declareGlobals] at h
    obtain ⟨_, b₁, h₁, h⟩ := bind_ok.mp h
    rw [Lowering.declareGlobal] at h₁
    obtain ⟨type, b₂, h₂, h₁⟩ := bind_ok.mp h₁
    rw [declaredType] at h₂
    rcases ht : ValueType.ofName? d.type with _ | found
    · rw [ht] at h₂
      exact absurd h₂ throw_ne_ok
    · rw [ht] at h₂
      cases h₂
      rcases hd : type.defaultText? with _ | default
      · rw [hd] at h₁
        exact absurd h₁ throw_ne_ok
      · rw [hd] at h₁
        cases h₁
        exact .cons ht hd (GlobalsLowered.of_run ds h)

/-- A successful lowering of parameters has a derivation. -/
theorem ParamsLowered.of_run :
    ∀ (ps : List Parameter) {pin : Nat} {b b' : Builder} {u : Unit},
      Lowering.parameters pin ps b = .ok u b' → ParamsLowered pin ps b b'
  | [], pin, b, b', u, h => by
    cases h
    exact .nil pin b
  | p :: ps, pin, b, b', u, h => by
    rw [Lowering.parameters] at h
    obtain ⟨type, b₁, h₁, h⟩ := bind_ok.mp h
    rw [declaredType] at h₁
    rcases ht : ValueType.ofName? p.type with _ | found
    · rw [ht] at h₁
      exact absurd h₁ throw_ne_ok
    · rw [ht] at h₁
      cases h₁
      exact .cons ht (ParamsLowered.of_run ps h)

/-- A successful lowering of a method has a derivation. -/
theorem EntryLowered.of_run {t : Builtins} {m : Method} {b b' : Builder} {u : Unit}
    (h : Lowering.method t m b = .ok u b') : EntryLowered t (some m) b b' := by
  rw [Lowering.method] at h
  obtain ⟨_, b₁, h₁, h⟩ := bind_ok.mp h
  obtain ⟨last, b₂, h₂, h⟩ := bind_ok.mp h
  cases h
  exact .present (ParamsLowered.of_run m.params h₁) (BodyLowered.of_run m.body h₂)

/-- A program that has a graph has a derivation of it. -/
theorem ProgramLowered.of_lower {t : Builtins} {p : Program} {first : Ref} {g : Graph}
    (h : p.lower t first = .ok g) : ProgramLowered t p first g := by
  rw [Program.lower] at h
  rcases hr : Lowering.program t p (Builder.start first) with ⟨g', b⟩ | ⟨e, b⟩
  · rw [hr] at h
    cases h
    rw [Lowering.program] at hr
    obtain ⟨_, b₁, h₁, hr⟩ := bind_ok.mp hr
    have hg := GlobalsLowered.of_run _ h₁
    rcases hm : p.entry? with _ | m
    · rw [hm] at hr
      cases hr
      exact .intro hg (hm ▸ .absent b₁)
    · rw [hm] at hr
      obtain ⟨_, b₂, h₂, hr⟩ := bind_ok.mp hr
      cases hr
      exact .intro hg (hm ▸ EntryLowered.of_run h₂)
  · rw [hr] at h
    cases h

/-- What a successful lowering of a program with an entry method did. -/
theorem lower_entry_ok {t : Builtins} {first : Ref} {p : Program} {entry : Method} {g : Graph}
    (h : p.lower t first = .ok g) (he : p.entry? = some entry) :
    ∃ b₁ b₂ last b₃, declareGlobals p.globals (Builder.start first) = .ok () b₁ ∧
      parameters 0 entry.params b₁ = .ok () b₂ ∧
      Lowering.body t none Ref.endpoint entry.body b₂ = .ok last b₃ ∧
      g = { b₃.graph with counter := b₃.next } := by
  rw [Program.lower] at h
  rcases hr : Lowering.program t p (Builder.start first) with ⟨g', b⟩ | ⟨e, b⟩
  · rw [hr] at h
    cases h
    rw [Lowering.program, he] at hr
    obtain ⟨_, b₁, h₁, hr⟩ := bind_ok.mp hr
    obtain ⟨_, b₂, h₂, hr⟩ := bind_ok.mp hr
    rw [Lowering.method] at h₂
    obtain ⟨_, b₃, h₃, h₂⟩ := bind_ok.mp h₂
    obtain ⟨last, b₄, h₄, h₂⟩ := bind_ok.mp h₂
    cases h₂
    cases hr
    exact ⟨b₁, b₃, last, b₄, h₁, h₃, h₄, rfl⟩
  · rw [hr] at h
    cases h

end ScriptGraph
