import ScriptGraph.Proofs.Meaning.Evaluation

/-!
# Expressions keep their meaning

A graph in the making is evaluated as far as it goes. The wire that lowering yields for an expression
then holds the value of the expression, where each name has the value of what it stands for.

* `Builder.Live` — the graph so far can be evaluated, and the ids still to be given are unused;
* `Builder.Carries` — what was there below some id is left alone;
* `Builder.Computes` — both, with no change to the store or to the names;
* `Builder.look` — what a name means at this point of the graph;
* `ExprLowered.computes` — the wire of an expression holds its value.

A call takes its id before its arguments take theirs. So while arguments are lowered there is one id
below the counter that must stay unused, and that gathers connections: `Builder.Pending`.
-/

namespace ScriptGraph

open Lowering

variable {V : Type} {rt : Runtime V} {t : Builtins} {args : Nat → V} {σ : Ref → V}

namespace Builder

variable (rt args) in
/-- A wire holds a value. -/
def Holds (b : Builder) (m : Memory V) (w : Wire) (v : V) : Prop :=
  b.graph.value? rt args m w.ref w.pin = some v

variable (rt args) in
/-- The value of a binding. -/
def bound? (b : Builder) (m : Memory V) : Binding → Option V
  | .wire wire => b.graph.value? rt args m wire.ref wire.pin
  | .parameter _ pin => some (args pin)
  | .globalVar _ ref => some (m.store ref)

variable (rt args) in
/-- The value of a name. -/
def look (b : Builder) (m : Memory V) (name : String) : Option V :=
  (b.scope.get? name).bind (b.bound? rt args m)

variable (rt args σ) in
/-- The graph so far leads to a memory, and the ids from the counter on are unused. -/
structure Live (b : Builder) (m : Memory V) : Prop where
  /-- the graph so far can be evaluated -/
  run : b.graph.run rt args σ = some m
  /-- ids are given from above zero -/
  next_pos : 0 < b.next
  /-- no node has an id still to be given -/
  nodes : ∀ n ∈ b.graph.nodes, n.ref < b.next
  /-- no data goes there -/
  fresh : ∀ ref, b.next ≤ ref → b.graph.feedsOf ref = []
  /-- no value is there -/
  blank : ∀ ref, b.next ≤ ref → ∀ pin, b.graph.value? rt args m ref pin = none
  /-- every name has a value -/
  scope : ∀ name binding, b.scope.get? name = some binding →
    (b.bound? rt args m binding).isSome = true
  /-- variables have ids above zero -/
  linked : ∀ name type ref, b.scope.get? name = some (.globalVar type ref) → 0 < ref

variable (rt args) in
/-- What is below an id is left alone: values, connections and nodes. -/
structure Carries (base : Ref) (b : Builder) (m : Memory V) (b' : Builder) (m' : Memory V) :
    Prop where
  next : b.next ≤ b'.next
  values : ∀ ref < base, ∀ pin,
    b'.graph.value? rt args m' ref pin = b.graph.value? rt args m ref pin
  feeds : ∀ ref < base, b'.graph.feedsOf ref = b.graph.feedsOf ref
  nodes : ∀ n ∈ b'.graph.nodes, n ∈ b.graph.nodes ∨ base ≤ n.ref

variable (rt args σ) in
/-- Something was computed: only ids from `base` on are concerned, the variables keep their values
and the names their meaning. -/
structure Computes (base : Ref) (b : Builder) (m : Memory V) (b' : Builder) (m' : Memory V) :
    Prop where
  live : b'.Live rt args σ m'
  carries : Carries rt args base b m b' m'
  store : m'.store = m.store
  scope : b'.scope = b.scope
  globals : b'.graph.globals = b.graph.globals

variable {b b₁ b₂ : Builder} {m m₁ m₂ : Memory V} {base : Ref}

theorem Carries.refl (base : Ref) (b : Builder) (m : Memory V) : Carries rt args base b m b m :=
  ⟨Int.le_refl _, fun _ _ _ => rfl, fun _ _ => rfl, fun _ h => .inl h⟩

theorem Carries.trans {base' : Ref} (h : Carries rt args base b m b₁ m₁)
    (h' : Carries rt args base' b₁ m₁ b₂ m₂) (hb : base ≤ base') :
    Carries rt args base b m b₂ m₂ := by
  refine ⟨Int.le_trans h.next h'.next, fun ref hr pin => ?_, fun ref hr => ?_, fun n hn => ?_⟩
  · rw [h'.values ref (Int.lt_of_lt_of_le hr hb), h.values ref hr]
  · rw [h'.feeds ref (Int.lt_of_lt_of_le hr hb), h.feeds ref hr]
  · rcases h'.nodes n hn with hn | hn
    · exact h.nodes n hn
    · exact .inr (Int.le_trans hb hn)

theorem Carries.weaken {base' : Ref} (h : Carries rt args base b m b₁ m₁) (hb : base' ≤ base) :
    Carries rt args base' b m b₁ m₁ :=
  (Carries.refl base' b m).trans h hb

theorem Computes.refl (h : b.Live rt args σ m) (base : Ref) : Computes rt args σ base b m b m :=
  ⟨h, .refl base b m, rfl, rfl, rfl⟩

theorem Computes.trans {base' : Ref} (h : Computes rt args σ base b m b₁ m₁)
    (h' : Computes rt args σ base' b₁ m₁ b₂ m₂) (hb : base ≤ base') :
    Computes rt args σ base b m b₂ m₂ :=
  ⟨h'.live, h.carries.trans h'.carries hb, h'.store.trans h.store, h'.scope.trans h.scope,
    h'.globals.trans h.globals⟩

theorem Computes.weaken {base' : Ref} (h : Computes rt args σ base b m b₁ m₁)
    (hb : base' ≤ base) : Computes rt args σ base' b m b₁ m₁ :=
  ⟨h.live, h.carries.weaken hb, h.store, h.scope, h.globals⟩

/-- What has a value was given an id. -/
theorem Live.ref_lt (h : b.Live rt args σ m) {ref : Ref} {pin : Nat} {v : V}
    (hv : b.graph.value? rt args m ref pin = some v) : ref < b.next := by
  by_contra hn
  rw [h.blank ref (Int.not_lt.mp hn)] at hv
  cases hv

/-- A wire keeps its value. -/
theorem Holds.carry {w : Wire} {v : V} (h : b.Holds rt args m w v) (hl : b.Live rt args σ m)
    (hc : Carries rt args b.next b m b₁ m₁) : b₁.Holds rt args m₁ w v :=
  (hc.values w.ref (hl.ref_lt h) w.pin).trans h

/-- What a name stands for keeps its value. -/
theorem bound?_carry {name : String} {binding : Binding} (hl : b.Live rt args σ m)
    (hb : b.scope.get? name = some binding) (hc : Carries rt args b.next b m b₁ m₁)
    (hs : m₁.store = m.store) : b₁.bound? rt args m₁ binding = b.bound? rt args m binding := by
  have hsome := hl.scope name binding hb
  cases binding with
  | wire wire =>
    obtain ⟨v, hv⟩ := Option.isSome_iff_exists.mp hsome
    exact hc.values wire.ref (hl.ref_lt hv) wire.pin
  | parameter type pin => rfl
  | globalVar type ref => exact congrArg some (congrFun hs ref)

/-- Names keep their meaning while something is computed. -/
theorem Computes.look_eq (hl : b.Live rt args σ m) (h : Computes rt args σ b.next b m b₁ m₁) :
    b₁.look rt args m₁ = b.look rt args m := by
  funext name
  rw [look, look, h.scope]
  rcases hb : b.scope.get? name with _ | binding
  · rfl
  · exact bound?_carry hl hb h.carries h.store

/-! ## A node is added -/

/-- The graph goes on with a node whose inputs are there. -/
theorem Live.run_addNode (hl : b.Live rt args σ m) {n : Node} {ws : List Wire} {vs : List V}
    (hn : b₁.graph.nodes = b.graph.nodes ++ [n]) (hlit : b₁.graph.literals = b.graph.literals)
    (hunused : ∀ k ∈ b.graph.nodes, k.ref ≠ n.ref)
    (hself : b₁.graph.feedsOf n.ref = feeds n.ref 0 ws)
    (hother : ∀ ref, ref ≠ n.ref → b₁.graph.feedsOf ref = b.graph.feedsOf ref)
    (hv : List.Forall₂ (b.Holds rt args m) ws vs) (hp : Graph.perform rt m n vs = some m₁) :
    b₁.graph.run rt args σ = some m₁ := by
  have hrun := Graph.run_grow hn (hlit ▸ List.prefix_rfl) (fun k hk => ?_) hl.run
  · have hinputs : b₁.graph.inputValues? rt args m n.ref = some vs := by
      refine Graph.inputValues?_of_feeds hself (hv.imp fun w v hw => ?_)
      rw [Graph.value?_congr hlit rfl]
      exact hw
    have hvisit : b₁.graph.visit rt args m n = some m₁ :=
      Option.bind_eq_some_iff.mpr ⟨vs, hinputs, hp⟩
    rw [hrun, List.foldlM_cons, hvisit]
    rfl
  · exact hother k.ref (hunused k hk)

/-- A node that yields outputs under an unused id. -/
theorem Live.yield (hl : b.Live rt args σ m) {n : Node} {ws : List Wire} {vs : List V}
    {outputs : Nat → V} (hn : b₁.graph.nodes = b.graph.nodes ++ [n])
    (hlit : b₁.graph.literals = b.graph.literals) (hscope : b₁.scope = b.scope)
    (hglobals : b₁.graph.globals = b.graph.globals) (hnext : b.next ≤ b₁.next)
    (hpos : 0 < n.ref) (hlt : n.ref < b₁.next) (hunused : ∀ k ∈ b.graph.nodes, k.ref ≠ n.ref)
    (hblank : ∀ pin, b.graph.value? rt args m n.ref pin = none)
    (hself : b₁.graph.feedsOf n.ref = feeds n.ref 0 ws)
    (hother : ∀ ref, ref ≠ n.ref → b₁.graph.feedsOf ref = b.graph.feedsOf ref)
    (hv : List.Forall₂ (b.Holds rt args m) ws vs)
    (hp : Graph.perform rt m n vs = some (m.yield n.ref outputs)) :
    Computes rt args σ n.ref b m b₁ (m.yield n.ref outputs) ∧
      ∀ type pin, b₁.Holds rt args (m.yield n.ref outputs) (.atPin type n.ref pin) (outputs pin) := by
  have hrun := hl.run_addNode hn hlit hunused hself hother hv hp
  -- the id was blank, so no value that was there is lost
  have hvalue : ∀ ref, ref ≠ n.ref → ∀ pin,
      b₁.graph.value? rt args (m.yield n.ref outputs) ref pin =
        b.graph.value? rt args m ref pin := by
    intro ref hne pin
    rw [Graph.value?_yield_of_ne hne, Graph.value?_congr hlit rfl]
  have hne : n.ref ≠ Ref.endpoint := Int.ne_of_gt (Int.lt_trans (by decide) hpos)
  refine ⟨⟨⟨hrun, Int.lt_trans hpos hlt, ?_, ?_, ?_, ?_, ?_⟩, ⟨hnext, ?_, ?_, ?_⟩, rfl, hscope,
    hglobals⟩, fun type pin => Graph.value?_yield_self hne outputs pin⟩
  · intro k hk
    rw [hn] at hk
    rcases List.mem_append.mp hk with hk | hk
    · exact Int.lt_of_lt_of_le (hl.nodes k hk) hnext
    · rw [List.mem_singleton.mp hk]
      exact hlt
  · intro ref hr
    rw [hother ref (Int.ne_of_gt (Int.lt_of_lt_of_le hlt hr))]
    exact hl.fresh ref (Int.le_trans hnext hr)
  · intro ref hr pin
    rw [hvalue ref (Int.ne_of_gt (Int.lt_of_lt_of_le hlt hr))]
    exact hl.blank ref (Int.le_trans hnext hr) pin
  · intro name binding hb
    rw [hscope] at hb
    have hsome := hl.scope name binding hb
    cases binding with
    | wire wire =>
      obtain ⟨v, hv⟩ := Option.isSome_iff_exists.mp hsome
      -- a wire that has a value does not lead to a blank id
      have hwire : wire.ref ≠ n.ref := by
        intro he
        rw [bound?, he, hblank] at hv
        cases hv
      rw [bound?, hvalue wire.ref hwire]
      exact hsome
    | parameter type pin => rfl
    | globalVar type ref => rfl
  · intro name type ref hb
    rw [hscope] at hb
    exact hl.linked name type ref hb
  · intro ref hr pin
    exact hvalue ref (Int.ne_of_lt hr) pin
  · intro ref hr
    exact hother ref (Int.ne_of_lt hr)
  · intro k hk
    rw [hn] at hk
    rcases List.mem_append.mp hk with hk | hk
    · exact .inl hk
    · rw [List.mem_singleton.mp hk]
      exact .inr (Int.le_refl _)

/-- Connections of a new node with all its inputs. -/
theorem feedsOf_emit (hl : b.Live rt args σ m) (opcode : Opcode) (place : Place) (linked : Ref)
    (inputs : List Wire) :
    (b.emit opcode place linked inputs).graph.feedsOf b.next = feeds b.next 0 inputs ∧
      ∀ ref, ref ≠ b.next →
        (b.emit opcode place linked inputs).graph.feedsOf ref = b.graph.feedsOf ref := by
  constructor
  · rw [Graph.feedsOf_feeds (g := b.graph) rfl, hl.fresh b.next (Int.le_refl _), if_pos rfl,
      List.nil_append]
  · intro ref hr
    rw [Graph.feedsOf_feeds (g := b.graph) rfl, if_neg hr, List.append_nil]

/-- A node that yields outputs under the next id. -/
theorem Live.emit (hl : b.Live rt args σ m) {opcode : Opcode} {place : Place} {linked : Ref}
    {inputs : List Wire} {vs : List V} {outputs : Nat → V}
    (hv : List.Forall₂ (b.Holds rt args m) inputs vs)
    (hp : Graph.perform rt m ⟨opcode, b.next, place, linked⟩ vs = some (m.yield b.next outputs)) :
    Computes rt args σ b.next b m (b.emit opcode place linked inputs) (m.yield b.next outputs) ∧
      ∀ type pin, (b.emit opcode place linked inputs).Holds rt args (m.yield b.next outputs)
        (.atPin type b.next pin) (outputs pin) := by
  obtain ⟨hself, hother⟩ := feedsOf_emit hl opcode place linked inputs
  have hnext : b.next < (b.emit opcode place linked inputs).next :=
    Int.lt_add_one_of_le (Int.le_refl _)
  exact hl.yield (n := ⟨opcode, b.next, place, linked⟩) rfl rfl rfl rfl (Int.le_of_lt hnext)
    hl.next_pos hnext (fun k hk => Int.ne_of_lt (hl.nodes k hk)) (hl.blank b.next (Int.le_refl _))
    hself hother hv hp

/-- An operation of the runtime. -/
theorem Live.operate (hl : b.Live rt args σ m) (opcode : Opcode) (place : Place)
    {inputs : List Wire} {vs : List V} (hv : List.Forall₂ (b.Holds rt args m) inputs vs) :
    ∃ m₁, Computes rt args σ b.next b m (b.operate opcode place inputs) m₁ ∧
      ∀ type pin, (b.operate opcode place inputs).Holds rt args m₁ (.atPin type b.next pin)
        (rt.operation opcode vs pin) :=
  ⟨_, hl.emit hv (Graph.perform_unlinked opcode b.next place vs)⟩

/-! ## Literals, reports and reads -/

/-- A literal is added under the next id and has its value. -/
theorem Live.addLiteral (hl : b.Live rt args σ m) (name : String) (place : Place)
    (value : Binary32) :
    Computes rt args σ b.next b m (b.addLiteral name place value) m ∧
      ∀ w : Wire, w.ref = b.next →
        (b.addLiteral name place value).Holds rt args m w (rt.number value) := by
  have hnext : b.next < (b.addLiteral name place value).next :=
    Int.lt_add_one_of_le (Int.le_refl _)
  have hne : b.next ≠ Ref.endpoint := Int.ne_of_gt (Int.lt_trans (by decide) hl.next_pos)
  have hother : ∀ ref, ref ≠ b.next → ∀ pin,
      (b.addLiteral name place value).graph.value? rt args m ref pin =
        b.graph.value? rt args m ref pin := by
    intro ref hr pin
    have hnew : ([⟨b.next, name, place, value⟩] : List Literal).find? (fun l => l.ref == ref) =
        none := by
      rw [List.find?_cons_of_neg (by simpa using Ne.symm hr), List.find?_nil]
    rw [Graph.value?, Builder.addLiteral, Graph.value?]
    simp only [List.find?_append, hnew, Option.or_none]
  have hself : ∀ pin, (b.addLiteral name place value).graph.value? rt args m b.next pin =
      some (rt.number value) := by
    intro pin
    have hnone := hl.blank b.next (Int.le_refl _) pin
    rw [Graph.value?, if_neg hne] at hnone ⊢
    rcases ho : m.outputs b.next with _ | outputs
    · rw [ho] at hnone
      have hfind := Option.map_eq_none_iff.mp hnone
      simp only [Builder.addLiteral, List.find?_append, hfind, Option.none_or]
      simp
    · rw [ho] at hnone
      cases hnone
  refine ⟨⟨⟨?_, Int.lt_trans hl.next_pos hnext, ?_, ?_, ?_, ?_, hl.linked⟩,
    ⟨Int.le_of_lt hnext, ?_, fun _ _ => rfl, fun _ h => .inl h⟩, rfl, rfl, rfl⟩, ?_⟩
  · exact Graph.run_keep (g := b.graph) rfl (List.prefix_append _ _) (fun _ _ => rfl) hl.run
  · exact fun n hn => Int.lt_trans (hl.nodes n hn) hnext
  · exact fun ref hr => hl.fresh ref (Int.le_trans (Int.le_of_lt hnext) hr)
  · intro ref hr pin
    rw [hother ref (Int.ne_of_gt (Int.lt_of_lt_of_le hnext hr))]
    exact hl.blank ref (Int.le_trans (Int.le_of_lt hnext) hr) pin
  · intro other binding hb
    have hsome := hl.scope other binding hb
    cases binding with
    | wire wire =>
      obtain ⟨v, hv⟩ := Option.isSome_iff_exists.mp hsome
      have hwire : wire.ref ≠ b.next := Int.ne_of_lt (hl.ref_lt hv)
      rw [bound?, hother wire.ref hwire]
      exact hsome
    | parameter type pin => rfl
    | globalVar type ref => rfl
  · exact fun ref hr pin => hother ref (Int.ne_of_lt hr) pin
  · intro w hw
    rw [Holds, hw]
    exact hself w.pin

/-- A report changes nothing. -/
theorem Live.note (hl : b.Live rt args σ m) (event : Event) :
    Computes rt args σ b.next b m (b.note event) m :=
  ⟨⟨hl.run, hl.next_pos, hl.nodes, hl.fresh, hl.blank, hl.scope, hl.linked⟩,
    ⟨Int.le_refl _, fun _ _ _ => rfl, fun _ _ => rfl, fun _ h => .inl h⟩, rfl, rfl, rfl⟩

/-- The wire of a name that is read holds the value of the name. -/
theorem Live.reading (hl : b.Live rt args σ m) {name : String} {binding : Binding}
    (hb : b.scope.get? name = some binding) :
    ∃ m₁ v, Computes rt args σ b.next b m (b.afterReading binding) m₁ ∧
      (b.afterReading binding).Holds rt args m₁ (b.reading binding) v ∧
      b.bound? rt args m binding = some v := by
  have hsome := hl.scope name binding hb
  cases binding with
  | wire wire =>
    obtain ⟨v, hv⟩ := Option.isSome_iff_exists.mp hsome
    exact ⟨m, v, .refl hl _, hv, hv⟩
  | parameter type pin =>
    refine ⟨m, args pin, .refl hl _, ?_, rfl⟩
    rw [Holds, Graph.value?, Builder.reading, Wire.atPin, if_pos rfl]
  | globalVar type ref =>
    have hpos := hl.linked name type ref hb
    obtain ⟨hc, hv⟩ := hl.emit .nil (Graph.perform_read hpos b.next Place.origin [])
    exact ⟨_, m.store ref, hc, hv type 0, rfl⟩

/-! ## Calls -/

/-- A target below the counter that is no node gathers connections: the wires `ws` were carried to
it. -/
structure Gathers (b : Builder) (target : Ref) (ws : List Wire) : Prop where
  lt : target < b.next
  unused : ∀ n ∈ b.graph.nodes, n.ref ≠ target
  feeds : b.graph.feedsOf target = feeds target 0 ws

variable (rt args) in
/-- An id that was given for a call whose node is still to come: nothing has it yet, and it gathers
the arguments. -/
structure Pending (b : Builder) (m : Memory V) (target : Ref) (ws : List Wire) : Prop extends
    Gathers b target ws where
  pos : 0 < target
  blank : ∀ pin, b.graph.value? rt args m target pin = none

/-- A call takes its id. -/
theorem Live.reserve (hl : b.Live rt args σ m) :
    Computes rt args σ b.next b m b.reserve m ∧ Pending rt args b.reserve m b.next [] := by
  have hnext : b.next < b.reserve.next := Int.lt_add_one_of_le (Int.le_refl _)
  constructor
  · refine ⟨⟨hl.run, Int.lt_trans hl.next_pos hnext, ?_, ?_, ?_, hl.scope, hl.linked⟩,
      ⟨Int.le_of_lt hnext, fun _ _ _ => rfl, fun _ _ => rfl, fun _ h => .inl h⟩, rfl, rfl, rfl⟩
    · exact fun n hn => Int.lt_trans (hl.nodes n hn) hnext
    · exact fun ref hr => hl.fresh ref (Int.le_trans (Int.le_of_lt hnext) hr)
    · exact fun ref hr => hl.blank ref (Int.le_trans (Int.le_of_lt hnext) hr)
  · exact ⟨⟨hnext, fun n hn => Int.ne_of_lt (hl.nodes n hn), hl.fresh b.next (Int.le_refl _)⟩,
      hl.next_pos, hl.blank b.next (Int.le_refl _)⟩

/-- What was gathered stays while something is computed behind it. -/
theorem Gathers.carry {target : Ref} {ws : List Wire} (h : b.Gathers target ws)
    (hc : Carries rt args b.next b m b₁ m₁) : b₁.Gathers target ws := by
  refine ⟨Int.lt_of_lt_of_le h.lt hc.next, fun n hn => ?_, ?_⟩
  · rcases hc.nodes n hn with hn | hn
    · exact h.unused n hn
    · exact Int.ne_of_gt (Int.lt_of_lt_of_le h.lt hn)
  · rw [hc.feeds target h.lt]
    exact h.feeds

/-- So does the id of a call. -/
theorem Pending.carry {target : Ref} {ws : List Wire} (h : Pending rt args b m target ws)
    (hc : Carries rt args b.next b m b₁ m₁) : Pending rt args b₁ m₁ target ws := by
  refine ⟨h.toGathers.carry hc, h.pos, fun pin => ?_⟩
  rw [hc.values target h.lt]
  exact h.blank pin

/-- One more wire is gathered: only the connections into the target change. -/
theorem Live.gather (hl : b.Live rt args σ m) {target : Ref} {ws : List Wire}
    (hp : b.Gathers target ws) (w : Wire) :
    Computes rt args σ target b m (b.connect (.data w.ref w.pin target ws.length)) m ∧
      (b.connect (.data w.ref w.pin target ws.length)).Gathers target (ws ++ [w]) := by
  have hfeeds : ∀ ref, (b.connect (.data w.ref w.pin target ws.length)).graph.feedsOf ref =
      b.graph.feedsOf ref ++ if ref = target then feeds target ws.length [w] else [] :=
    fun ref => Graph.feedsOf_feeds (g := b.graph) rfl
  have hother : ∀ ref, ref ≠ target →
      (b.connect (.data w.ref w.pin target ws.length)).graph.feedsOf ref = b.graph.feedsOf ref := by
    intro ref hr
    rw [hfeeds, if_neg hr, List.append_nil]
  constructor
  · refine ⟨⟨?_, hl.next_pos, hl.nodes, ?_, hl.blank, hl.scope, hl.linked⟩,
      ⟨Int.le_refl _, fun _ _ _ => rfl, ?_, fun _ h => .inl h⟩, rfl, rfl, rfl⟩
    · refine Graph.run_keep (g := b.graph) rfl List.prefix_rfl ?_ hl.run
      exact fun n hn => hother n.ref (hp.unused n hn)
    · intro ref hr
      rw [hother ref (Int.ne_of_gt (Int.lt_of_lt_of_le hp.lt hr))]
      exact hl.fresh ref hr
    · exact fun ref hr => hother ref (Int.ne_of_lt hr)
  · refine ⟨hp.lt, hp.unused, ?_⟩
    rw [hfeeds, if_pos rfl, hp.feeds, feeds_append, Nat.zero_add]

/-- The node of a call yields its outputs. -/
theorem Live.closeCall (hl : b.Live rt args σ m) {target : Ref} {ws : List Wire} {vs : List V}
    (hp : Pending rt args b m target ws) (opcode : Opcode) (place : Place)
    (hv : List.Forall₂ (b.Holds rt args m) ws vs) :
    ∃ m₁, Computes rt args σ target b m (b.addNode ⟨opcode, target, place, Ref.unlinked⟩) m₁ ∧
      ∀ type, (b.addNode ⟨opcode, target, place, Ref.unlinked⟩).Holds rt args m₁
        (.ofRef type target) (rt.operation opcode vs 0) := by
  have hperform : Graph.perform rt m ⟨opcode, target, place, Ref.unlinked⟩ vs = _ :=
    Graph.perform_unlinked opcode target place vs
  have hyield : Computes rt args σ target b m (b.addNode ⟨opcode, target, place, Ref.unlinked⟩) _ ∧
      _ :=
    hl.yield (n := ⟨opcode, target, place, Ref.unlinked⟩) rfl rfl rfl rfl (Int.le_refl _) hp.pos
      hp.lt hp.unused hp.blank hp.feeds (fun _ _ => rfl) hv hperform
  exact ⟨_, hyield.1, fun type => hyield.2 type 0⟩

end Builder

/-! ## Expressions -/

/-- The operation that lowering takes for an operator is one that the operator means. -/
theorem Runtime.Lawful.binary?_eq (hrt : rt.Lawful t) {op : BinaryOp} {vector : Bool}
    {opcode : Opcode} (h : t.operator? op.symbol vector = some opcode) (x y : V) :
    rt.binary? t op x y = some (rt.operation opcode [x, y] 0) := by
  rw [Runtime.binary?, Builtins.operation?]
  cases vector with
  | false => rw [h, Option.some_or, Option.map_some]
  | true =>
    rcases hs : t.operator? op.symbol false with _ | scalar
    · rw [h, Option.none_or, Option.map_some]
    · rw [Option.some_or, Option.map_some, hrt.variants op scalar opcode hs h]

/-- So is the splitter. -/
theorem Runtime.Lawful.split_eq (hrt : rt.Lawful t) (type : ValueType) (x : V) (pin : Nat) :
    rt.operation (if type = .vector3 then Opcode.splitVector3 else Opcode.splitVector2) [x] pin =
      rt.operation Opcode.splitVector2 [x] pin := by
  split
  · exact hrt.splitters x pin
  · rfl

open Builder

mutual

/-- **The wire of an expression holds its value.** Lowering an expression computes its value, from
what the names mean, and changes nothing else. -/
theorem ExprLowered.computes (hrt : rt.Lawful t) {e : Expr} {b b' : Builder} {w : Wire}
    {m : Memory V} (h : ExprLowered t e b w b') (hl : b.Live rt args σ m) :
    ∃ m' v, Computes rt args σ b.next b m b' m' ∧ b'.Holds rt args m' w v ∧
      e.eval rt t (b.look rt args m) = some v := by
  cases h with
  | number value b =>
    obtain ⟨h₁, hv⟩ := hl.addLiteral "Value" Place.origin value
    have h₂ := h₁.live.note (.literalMade b.next value)
    refine ⟨m, rt.number value, h₁.trans h₂ h₁.carries.next, hv _ rfl, ?_⟩
    rw [Expr.eval]
  | @bound name _ binding hb =>
    obtain ⟨m', v, hc, hv, hbound⟩ := hl.reading hb
    refine ⟨m', v, hc, hv, ?_⟩
    rw [Expr.eval, Builder.look, hb, Option.bind_some, hbound]
  | @constant name _ opcode hb ho =>
    obtain ⟨m', hc, hv⟩ := hl.operate opcode Place.origin .nil
    refine ⟨m', _, hc, hv .builtin 0, ?_⟩
    rw [Expr.eval, Builder.look, hb, Option.bind_none, ho, Option.map_some]
  | @neg inner _ b₁ w₁ h =>
    obtain ⟨m₁, v, hc₁, hv₁, he⟩ := h.computes hrt hl
    obtain ⟨m₂, hc₂, hv₂⟩ := hc₁.live.operate Opcode.negate (placeFor w₁.isPublic)
      (.cons hv₁ .nil)
    refine ⟨m₂, _, hc₁.trans hc₂ hc₁.carries.next, hv₂ .bool 0, ?_⟩
    rw [Expr.eval, he]
    rfl
  | @not inner _ b₁ w₁ h =>
    obtain ⟨m₁, v, hc₁, hv₁, he⟩ := h.computes hrt hl
    obtain ⟨m₂, hc₂, hv₂⟩ := hc₁.live.operate Opcode.not (placeFor w₁.isPublic) (.cons hv₁ .nil)
    refine ⟨m₂, _, hc₁.trans hc₂ hc₁.carries.next, hv₂ .bool 0, ?_⟩
    rw [Expr.eval, he]
    rfl
  | @binary op left right _ b₁ b₂ l r opcode hl' hr ho =>
    obtain ⟨m₁, x, hc₁, hx, hex⟩ := hl'.computes hrt hl
    obtain ⟨m₂, y, hc₂, hy, hey⟩ := hr.computes hrt hc₁.live
    -- the left wire still holds its value behind the right operand
    have hx := hx.carry hc₁.live hc₂.carries
    rw [hc₁.look_eq hl] at hey
    have hc₁₂ := hc₁.trans hc₂ hc₁.carries.next
    obtain ⟨m₃, hc₃, hv⟩ := hc₂.live.operate opcode (placeFor (l.isPublic || r.isPublic))
      (.cons hx (.cons hy .nil))
    refine ⟨m₃, _, hc₁₂.trans hc₃ hc₁₂.carries.next, hv _ 0, ?_⟩
    rw [Expr.eval, hex, hey]
    exact hrt.binary?_eq ho x y
  | @component receiver member es _ binding pin hb hp =>
    obtain ⟨m₁, x, hc₁, hx, hbound⟩ := hl.reading hb
    obtain ⟨m₂, hc₂, hv⟩ := hc₁.live.operate
      (if (b.reading binding).type = .vector3 then Opcode.splitVector3 else Opcode.splitVector2)
      (placeFor (b.reading binding).isPublic) (.cons hx .nil)
    refine ⟨m₂, _, hc₁.trans hc₂ hc₁.carries.next, hv .float pin, ?_⟩
    rw [Expr.eval, Builder.look, hb, Option.bind_some, hbound, hrt.split_eq]
    simp only [hp, Option.map_some]
  | @function receiver member es _ b₁ opcode ws hb ho ha =>
    obtain ⟨hc₀, hp₀⟩ := hl.reserve
    obtain ⟨m₁, vs, hc₁, -, hp₁, hv₁, hes⟩ := ha.computes hrt hc₀.live [] rfl hp₀
    obtain ⟨m₂, hc₂, hv⟩ := hc₁.live.closeCall hp₁ opcode (placeFor (ws.any (·.isPublic))) hv₁
    refine ⟨m₂, _, (hc₀.trans hc₁ (Int.le_refl _)).trans hc₂ (Int.le_refl _), hv _, ?_⟩
    rw [hc₀.look_eq hl] at hes
    rw [Expr.eval, Builder.look, hb, Option.bind_none, ho, hes]
    rfl
  | @construct type es _ b₁ opcode valueType ws ho ha =>
    obtain ⟨hc₀, hp₀⟩ := hl.reserve
    obtain ⟨m₁, vs, hc₁, -, hp₁, hv₁, hes⟩ := ha.computes hrt hc₀.live [] rfl hp₀
    obtain ⟨m₂, hc₂, hv⟩ := hc₁.live.closeCall hp₁ opcode (placeFor (ws.any (·.isPublic))) hv₁
    refine ⟨m₂, _, (hc₀.trans hc₁ (Int.le_refl _)).trans hc₂ (Int.le_refl _), hv _, ?_⟩
    rw [hc₀.look_eq hl] at hes
    rw [Expr.eval, ho, hes]
    rfl

/-- The wires of arguments hold their values. Only the pending call gathers connections meanwhile. -/
theorem ArgsLowered.computes (hrt : rt.Lawful t) {target : Ref} {pin : Nat} {es : List Expr}
    {b b' : Builder} {ws : List Wire} {m : Memory V} (h : ArgsLowered t target pin es b ws b')
    (hl : b.Live rt args σ m) (taken : List Wire) (hlen : taken.length = pin)
    (hp : Pending rt args b m target taken) :
    ∃ m' vs, Computes rt args σ target b m b' m' ∧
      (∀ ref < b.next, ∀ pin,
        b'.graph.value? rt args m' ref pin = b.graph.value? rt args m ref pin) ∧
      Pending rt args b' m' target (taken ++ ws) ∧
      List.Forall₂ (b'.Holds rt args m') ws vs ∧
      Expr.evalArgs rt t (b.look rt args m) es = some vs := by
  cases h with
  | nil =>
    refine ⟨m, [], .refl hl target, fun _ _ _ => rfl, ?_, .nil, ?_⟩
    · rw [List.append_nil]
      exact hp
    · rw [Expr.evalArgs]
  | @cons _ _ e es _ b₁ _ w ws h hs =>
    subst hlen
    obtain ⟨m₁, v, hc₁, hv, he⟩ := h.computes hrt hl
    have hp₁ := hp.carry hc₁.carries
    obtain ⟨hc₂, hg₂⟩ := hc₁.live.gather hp₁.toGathers w
    obtain ⟨m₃, vs, hc₃, hvalues, hp₃, hvs, hes⟩ :=
      hs.computes hrt hc₂.live (taken ++ [w]) List.length_append ⟨hg₂, hp₁.pos, hp₁.blank⟩
    -- a connection changes no value, so names mean the same before and behind it
    have hlook : (b₁.connect (.data w.ref w.pin target taken.length)).look rt args m₁ =
        b₁.look rt args m₁ := rfl
    rw [hlook, hc₁.look_eq hl] at hes
    rw [List.append_assoc] at hp₃
    have hc₁₂ := (hc₁.weaken (Int.le_of_lt hp.lt)).trans hc₂ (Int.le_refl _)
    refine ⟨m₃, v :: vs, hc₁₂.trans hc₃ (Int.le_refl _), fun ref hr pin => ?_, hp₃, .cons ?_ hvs, ?_⟩
    · rw [hvalues ref (Int.lt_of_lt_of_le hr hc₁.carries.next)]
      exact hc₁.carries.values ref hr pin
    · exact (hvalues w.ref (hc₁.live.ref_lt hv) w.pin).trans hv
    · rw [Expr.evalArgs, he, hes]
      rfl

end

end ScriptGraph
