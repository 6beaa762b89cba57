import ScriptGraph.Proofs.Lowering.Growth
import ScriptGraph.Proofs.Lowering.Integrity

/-!
# What lowering an expression may touch

An expression is lowered in the middle of a method, and it can fail half way: with ids taken by
calls whose nodes are never made, and with arguments connected to them. The builder goes on from
there. So what an expression leaves alone has to hold of failures too:

* `Addition` — nodes, literals and connections that are added to a graph;
* `Builder.Extends` — a builder with an addition, and nothing else changed but the counter and the
  reports. The parts that were added have ids that were given on the way;
* `Lowering.expr_framed` — that is all that lowering an expression does, whether it fails or not;
* `Builder.Origin` — where the wire of an expression leads to, `ExprLowered.origin` — it does.

A call takes its id first and makes its node last. Between the two its arguments are connected to an
id that no part has yet: the id is *open*, and `Builder.Extends` is told which ids are.
-/

namespace ScriptGraph

open Lowering

/-! ## Additions -/

/-- Parts that are added to a graph. -/
structure Addition where
  /-- the nodes -/
  nodes : List Node
  /-- the literals -/
  literals : List Literal
  /-- the connections -/
  connections : List Connection

namespace Addition

/-- No parts. -/
def none : Addition :=
  ⟨[], [], []⟩

/-- Parts, and then more parts. -/
def append (a a' : Addition) : Addition :=
  ⟨a.nodes ++ a'.nodes, a.literals ++ a'.literals, a.connections ++ a'.connections⟩

/-- The ids of the nodes and literals. -/
def refs (a : Addition) : List Ref :=
  a.nodes.map (·.ref) ++ a.literals.map (·.ref)

theorem refs_append (a a' : Addition) : (a.append a').refs.Perm (a.refs ++ a'.refs) := by
  simp only [append, refs, List.map_append, List.append_assoc]
  exact List.Perm.append_left _ (List.perm_append_comm_assoc _ _ _)

end Addition

namespace Graph

/-- A graph with an addition. -/
def add (g : Graph) (a : Addition) : Graph :=
  { g with
    nodes := g.nodes ++ a.nodes
    literals := g.literals ++ a.literals
    connections := g.connections ++ a.connections }

theorem add_none (g : Graph) : g.add .none = g := by
  simp [add, Addition.none]

theorem add_append (g : Graph) (a a' : Addition) : g.add (a.append a') = (g.add a).add a' := by
  simp [add, Addition.append]

theorem refs_add (g : Graph) (a : Addition) : (g.add a).refs.Perm (g.refs ++ a.refs) := by
  simp only [add, refs, Addition.refs, List.map_append, List.append_assoc]
  apply List.Perm.append_left
  apply (List.perm_append_comm_assoc _ _ _).trans
  apply List.Perm.append_left
  rw [← List.append_assoc]
  exact List.perm_append_comm

end Graph

namespace Builder

/-- The id `r` was given on the way from `b` to `b'`. -/
def Gives (b b' : Builder) (r : Ref) : Prop :=
  b.next ≤ r ∧ r < b'.next

theorem Gives.mono {b₀ b b' b₁ : Builder} {r : Ref} (h : b.Gives b' r) (hb : b₀.next ≤ b.next)
    (hb' : b'.next ≤ b₁.next) : b₀.Gives b₁ r :=
  ⟨Int.le_trans hb h.1, Int.lt_of_lt_of_le h.2 hb'⟩

/-- What was given later is another id. -/
theorem Gives.ne {b b₁ b' : Builder} {r r' : Ref} (h : b.Gives b₁ r) (h' : b₁.Gives b' r') :
    r ≠ r' :=
  Int.ne_of_lt (Int.lt_of_lt_of_le h.2 h'.1)

/-- The next id is given once the counter has gone on. -/
theorem gives_next {b b' : Builder} (h : b.next + 1 ≤ b'.next) : b.Gives b' b.next :=
  ⟨Int.le_refl _, Int.lt_of_add_one_le h⟩

theorem next_le_reserve (b : Builder) : b.next ≤ b.reserve.next :=
  Int.le_add_one (Int.le_refl _)

/-- `b.Extends opens a b'` says that `b'` is `b` with the addition `a`, and that nothing else is new
but the counter and the reports. -/
structure Extends (opens : List Ref) (b : Builder) (a : Addition) (b' : Builder) : Prop where
  graph : b'.graph = b.graph.add a
  scope : b'.scope = b.scope
  /-- the counter has not gone back -/
  next : b.next ≤ b'.next
  /-- no id is in use twice -/
  nodup : a.refs.Nodup
  /-- the ids were given on the way -/
  given : ∀ r ∈ a.refs, b.Gives b' r
  /-- the connections carry data, to ids that were given on the way or are open -/
  data : ∀ c ∈ a.connections, c.isExecution = false ∧ (c.target ∈ opens ∨ b.Gives b' c.target)

variable {opens : List Ref} {b b₁ b₂ b' : Builder} {a a' : Addition}

namespace Extends

theorem refl (b : Builder) : b.Extends opens .none b where
  graph := b.graph.add_none.symm
  scope := rfl
  next := Int.le_refl _
  nodup := List.nodup_nil
  given := nofun
  data := nofun

theorem trans (h : b.Extends opens a b₁) (h' : b₁.Extends opens a' b₂) :
    b.Extends opens (a.append a') b₂ where
  graph := by rw [h'.graph, h.graph, Graph.add_append]
  scope := h'.scope.trans h.scope
  next := Int.le_trans h.next h'.next
  nodup := by
    rw [(a.refs_append a').nodup_iff]
    refine List.nodup_append.mpr ⟨h.nodup, h'.nodup, fun r hr r' hr' => ?_⟩
    exact (h.given r hr).ne (h'.given r' hr')
  given r hr := by
    rcases List.mem_append.mp ((a.refs_append a').mem_iff.mp hr) with hr | hr
    · exact (h.given r hr).mono (Int.le_refl _) h'.next
    · exact (h'.given r hr).mono h.next (Int.le_refl _)
  data c hc := by
    rcases List.mem_append.mp hc with hc | hc
    · exact (h.data c hc).imp_right (.imp_right (·.mono (Int.le_refl _) h'.next))
    · exact (h'.data c hc).imp_right (.imp_right (·.mono h.next (Int.le_refl _)))

/-- What is connected without open ids may be connected with some. -/
theorem weaken (h : b.Extends [] a b') : b.Extends opens a b' :=
  { h with data := fun c hc => (h.data c hc).imp_right fun ht => ht.imp_left nofun }

/-- A call that took its id first can stop before its node is made. -/
theorem opened (h : b.reserve.Extends [b.next] a b') : b.Extends [] a b' where
  graph := h.graph
  scope := h.scope
  next := Int.le_trans b.next_le_reserve h.next
  nodup := h.nodup
  given r hr := (h.given r hr).mono b.next_le_reserve (Int.le_refl _)
  data c hc := by
    obtain ⟨he, ht | ht⟩ := h.data c hc
    · exact ⟨he, .inr (List.mem_singleton.mp ht ▸ gives_next h.next)⟩
    · exact ⟨he, .inr (ht.mono b.next_le_reserve (Int.le_refl _))⟩

/-- The node of a call has the id that the call took. -/
theorem closed {n : Node} (h : b.reserve.Extends [b.next] a b') (hn : n.ref = b.next) :
    b.Extends [] (a.append ⟨[n], [], []⟩) (b'.addNode n) where
  graph := by
    have hgraph : b'.graph = b.graph.add a := h.graph
    simp [addNode, hgraph, Graph.add, Addition.append]
  scope := h.scope
  next := h.opened.next
  nodup := by
    rw [(a.refs_append _).nodup_iff]
    refine List.nodup_append.mpr ⟨h.nodup, List.nodup_singleton _, fun r hr r' hr' => ?_⟩
    obtain rfl : r' = n.ref := List.mem_singleton.mp hr'
    -- the other ids were given after that of the call
    rw [hn]
    exact Int.ne_of_gt (Int.lt_of_add_one_le (h.given r hr).1)
  given r hr := by
    rcases List.mem_append.mp ((a.refs_append _).mem_iff.mp hr) with hr | hr
    · exact h.opened.given r hr
    · obtain rfl : r = n.ref := List.mem_singleton.mp hr
      exact hn ▸ gives_next h.next
  data c hc := by
    rcases List.mem_append.mp hc with hc | hc
    · exact h.opened.data c hc
    · exact absurd hc List.not_mem_nil

end Extends

/-- A node with the next id and data for its inputs is an addition. -/
theorem extends_emit (b : Builder) (opcode : Opcode) (place : Place) (linked : Ref)
    (inputs : List Wire) :
    b.Extends opens ⟨[⟨opcode, b.next, place, linked⟩], [], feeds b.next 0 inputs⟩
      (b.emit opcode place linked inputs) where
  graph := by simp [emit, Graph.add]
  scope := rfl
  next := Int.le_add_one (Int.le_refl _)
  nodup := List.nodup_singleton _
  given r hr := by
    obtain rfl : r = b.next := List.mem_singleton.mp hr
    exact gives_next (Int.le_refl _)
  data c hc := by
    obtain ⟨he, ht, -⟩ := mem_feeds hc
    exact ⟨he, .inr (ht ▸ gives_next (Int.le_refl _))⟩

/-- So is a literal with the next id. -/
theorem extends_addLiteral (b : Builder) (name : String) (place : Place) (value : Binary32) :
    b.Extends opens ⟨[], [⟨b.next, name, place, value⟩], []⟩ (b.addLiteral name place value) where
  graph := by simp [addLiteral, Graph.add]
  scope := rfl
  next := Int.le_add_one (Int.le_refl _)
  nodup := List.nodup_singleton _
  given r hr := by
    obtain rfl : r = b.next := List.mem_singleton.mp hr
    exact gives_next (Int.le_refl _)
  data := nofun

/-- So is a connection that carries data to an open id. -/
theorem extends_connect (b : Builder) (w : Wire) {target : Ref} (pin : Nat) (h : target ∈ opens) :
    b.Extends opens ⟨[], [], [.data w.ref w.pin target pin]⟩
      (b.connect (.data w.ref w.pin target pin)) where
  graph := by simp [connect, Graph.add]
  scope := rfl
  next := Int.le_refl _
  nodup := List.nodup_nil
  given := nofun
  data c hc := by
    obtain rfl := List.mem_singleton.mp hc
    exact ⟨rfl, .inl h⟩

/-- There is an addition that makes `b'` of `b`. -/
def Framed (opens : List Ref) (b b' : Builder) : Prop :=
  ∃ a, b.Extends opens a b'

theorem Framed.refl (b : Builder) : b.Framed opens b :=
  ⟨.none, .refl b⟩

theorem Framed.trans (h : b.Framed opens b₁) (h' : b₁.Framed opens b₂) : b.Framed opens b₂ := by
  obtain ⟨a, h⟩ := h
  obtain ⟨a', h'⟩ := h'
  exact ⟨a.append a', h.trans h'⟩

theorem framed_operate (b : Builder) (opcode : Opcode) (place : Place) (inputs : List Wire) :
    b.Framed opens (b.operate opcode place inputs) :=
  ⟨_, b.extends_emit opcode place Ref.unlinked inputs⟩

theorem framed_afterReading (b : Builder) (binding : Binding) :
    b.Framed opens (b.afterReading binding) := by
  cases binding with
  | wire wire => exact .refl b
  | parameter type pin => exact .refl b
  | globalVar type ref => exact ⟨_, b.extends_emit _ _ _ _⟩

end Builder

/-! ## Nodes and expressions -/

namespace Lowering

variable {opens : List Ref}

/-- An addition after an addition is one. -/
theorem framing : Sequential (Builder.Framed opens) where
  refl := .refl
  trans h h' := h.trans h'

theorem binding?_framed (name : String) : Keeps (Builder.Framed opens) (binding? name) :=
  Builder.Framed.refl

theorem connect_framed (w : Wire) {target : Ref} (pin : Nat) (h : target ∈ opens) :
    Keeps (Builder.Framed opens) (connect w target pin) :=
  fun b => ⟨_, b.extends_connect w pin h⟩

theorem unary_framed (opcode : Opcode) (inner : Wire) :
    Keeps (Builder.Framed opens) (unary opcode inner) :=
  fun b => b.framed_operate opcode _ [inner]

theorem binary_framed (t : Builtins) (op : BinaryOp) (left right : Wire) :
    Keeps (Builder.Framed opens) (binary t op left right) := by
  intro b
  rw [leaves]
  rcases hr : binary t op left right b with ⟨w, b'⟩ | ⟨e, b'⟩
  · obtain ⟨opcode, -, -, rfl⟩ := binary_ok hr
    exact b.framed_operate _ _ _
  · rw [binary] at hr
    rcases ho : t.operator? op.symbol (isVectorOp left.type right.type) with _ | opcode
    · rw [ho] at hr
      cases hr
      exact .refl b
    · rw [ho] at hr
      cases hr

theorem currentValue_framed (binding : Binding) :
    Keeps (Builder.Framed opens) (currentValue binding) := by
  intro b
  rw [leaves, currentValue_run]
  exact b.framed_afterReading binding

theorem conjunction_framed (outer : Option Wire) (inner : Wire) :
    Keeps (Builder.Framed opens) (conjunction outer inner) := by
  intro b
  rw [leaves, conjunction_run]
  cases outer with
  | none => exact .refl b
  | some outer => exact b.framed_operate _ _ _

theorem gated_framed (condition : Option Wire) (binding : Binding) (new : Wire)
    (previous : Option Wire) :
    Keeps (Builder.Framed opens) (gated condition binding new previous) := by
  intro b
  rw [leaves, gated_run]
  rcases condition with _ | condition
  · exact .refl b
  · rcases previous with _ | previous
    · exact (b.framed_afterReading binding).trans (Builder.framed_operate _ _ _ _)
    · exact b.framed_operate _ _ _

theorem component_framed (receiver member : Name) (binding : Binding) :
    Keeps (Builder.Framed opens) (component receiver member binding) := by
  rw [component]
  rcases componentPin? member.text with _ | pin
  · exact framing.throw _
  · exact framing.bind (currentValue_framed binding) fun value b => b.framed_operate _ _ [value]

theorem namedValue_framed (t : Builtins) (name : Name) :
    Keeps (Builder.Framed opens) (namedValue t name) := by
  apply framing.bind (binding?_framed _)
  intro found
  cases found with
  | some binding => exact currentValue_framed binding
  | none =>
    rcases t.constant? name.text with _ | opcode
    · exact framing.throw _
    · intro b
      have h : b.Framed opens (b.operate opcode Place.origin []) := b.framed_operate _ _ _
      simp only [Builder.operate, Builder.emit, feeds, List.append_nil] at h
      exact h

/-- A call takes its id, then its arguments are lowered, and its node comes last. -/
theorem call_framed {x : Ref → Lowering Bool} (hx : ∀ ref, Keeps (Builder.Framed [ref]) (x ref))
    (opcode : Opcode) (w : Ref → Wire) :
    Keeps (Builder.Framed []) (do
      let ref ← freshRef
      let readsPublic ← x ref
      addNode { opcode := opcode, ref := ref, place := placeFor readsPublic }
      return w ref) := by
  intro b
  obtain ⟨a, ha⟩ := hx b.next b.reserve
  have hfresh : freshRef b = .ok b.next b.reserve := rfl
  simp only [leaves, Bind.bind, EStateM.bind, hfresh] at ha ⊢
  rcases hr : x b.next b.reserve with ⟨readsPublic, b₁⟩ | ⟨e, b₁⟩ <;> rw [hr] at ha
  · exact ⟨_, ha.closed rfl⟩
  · exact ⟨a, ha.opened⟩

mutual

/-- All that lowering an expression does, also if it fails, is an addition. -/
theorem expr_framed (t : Builtins) : ∀ e : Expr, Keeps (Builder.Framed []) (expr t e)
  | .number value => fun b => by
    obtain ⟨a, ha⟩ : b.Framed [] (b.addLiteral "Value" Place.origin value) :=
      ⟨_, b.extends_addLiteral _ _ _⟩
    exact ⟨a, { ha with }⟩
  | .var name => namedValue_framed t name
  | .neg inner => framing.bind (expr_framed t inner) fun _ => unary_framed _ _
  | .not inner => framing.bind (expr_framed t inner) fun _ => unary_framed _ _
  | .binary op left right =>
    framing.bind (expr_framed t left) fun _ => framing.bind (expr_framed t right) fun _ =>
      binary_framed t op _ _
  | .call receiver member args => by
    apply framing.bind (binding?_framed _)
    intro found
    cases found with
    | some binding => exact component_framed receiver member binding
    | none =>
      rcases t.member? receiver.text member.text with _ | opcode
      · exact framing.throw _
      · exact call_framed (fun ref => arguments_framed t ref 0 args) opcode _
  | .construct type args => by
    rw [expr]
    rcases constructor? type.text with _ | ⟨opcode, valueType⟩
    · exact framing.throw _
    · exact call_framed (fun ref => arguments_framed t ref 0 args) opcode _

/-- So do arguments, whose connections lead to an open id. -/
theorem arguments_framed (t : Builtins) (target : Ref) (pin : Nat) :
    ∀ args : List Expr, Keeps (Builder.Framed [target]) (arguments t target pin args)
  | [] => framing.pure _
  | arg :: args => by
    have harg : Keeps (Builder.Framed [target]) (expr t arg) := fun b =>
      (expr_framed t arg b).imp fun _ h => h.weaken
    apply framing.bind harg
    intro w
    apply framing.bind (connect_framed w pin (List.mem_singleton_self target))
    intro _
    exact framing.bind (arguments_framed t target (pin + 1) args) fun _ => framing.pure _

end

end Lowering

/-! ## Where wires lead to -/

/-- Where the wire of an expression leads to that was lowered from the builder `b` on and added `a`.
-/
inductive Builder.Origin (b : Builder) (a : Addition) : Expr → Wire → Prop where
  /-- it was stored under a name -/
  | stored {name : Name} {w : Wire} (h : b.scope.get? name.text = some (.wire w)) :
      Origin b a (.var name) w
  /-- it is an input of the method -/
  | parameter {name : Name} {type : ValueType} {pin : Nat}
      (h : b.scope.get? name.text = some (.parameter type pin)) :
      Origin b a (.var name) (.atPin type Ref.endpoint pin)
  /-- a part was made that yields it -/
  | added {e : Expr} {w : Wire} (h : w.ref ∈ a.refs) : Origin b a e w

namespace Builder.Extends

variable {opens : List Ref} {b b' : Builder} {a : Addition}

/-- A node with an id that was not given before was added. -/
theorem mem_of_node (ha : b.Extends opens a b') (hb : ∀ r ∈ b.graph.refs, r < b.next) {n : Node}
    (hn : n ∈ b'.graph.nodes) (hle : b.next ≤ n.ref) : n.ref ∈ a.refs := by
  rw [ha.graph] at hn
  rcases List.mem_append.mp hn with hn | hn
  · exact absurd (hb _ (Graph.node_ref_mem hn)) (Int.not_lt.mpr hle)
  · exact List.mem_append_left _ (List.mem_map_of_mem hn)

/-- So was a literal. -/
theorem mem_of_literal (ha : b.Extends opens a b') (hb : ∀ r ∈ b.graph.refs, r < b.next)
    {l : Literal} (hl : l ∈ b'.graph.literals) (hle : b.next ≤ l.ref) : l.ref ∈ a.refs := by
  rw [ha.graph] at hl
  rcases List.mem_append.mp hl with hl | hl
  · exact absurd (hb _ (Graph.literal_ref_mem hl)) (Int.not_lt.mpr hle)
  · exact List.mem_append_right _ (List.mem_map_of_mem hl)

end Builder.Extends

/-- The wire of an expression leads to a part that was added, unless it was stored before or is an
input of the method. -/
theorem ExprLowered.origin {t : Builtins} {e : Expr} {b b' : Builder} {w : Wire} {opens : List Ref}
    {a : Addition} (h : ExprLowered t e b w b') (ha : b.Extends opens a b')
    (hb : ∀ r ∈ b.graph.refs, r < b.next) : b.Origin a e w := by
  have hlast {l : List Node} {n : Node} (hn : b'.graph.nodes = l ++ [n]) (hw : n.ref = w.ref)
      (hle : b.next ≤ n.ref) : b.Origin a e w :=
    .added (hw ▸ ha.mem_of_node hb (hn ▸ List.mem_append_right l (List.mem_singleton_self n)) hle)
  cases h with
  | number value b =>
    refine .added (ha.mem_of_literal hb (l := .ofNumber b.next value) ?_ (Int.le_refl _))
    exact List.mem_append_right _ (List.mem_singleton_self _)
  | @bound name _ binding hs =>
    cases binding with
    | wire wire => exact .stored hs
    | parameter type pin => exact .parameter hs
    | globalVar type ref => exact hlast rfl rfl (Int.le_refl _)
  | constant hs ho => exact hlast rfl rfl (Int.le_refl _)
  | neg h => exact hlast rfl rfl h.le.next
  | not h => exact hlast rfl rfl h.le.next
  | binary hl hr ho => exact hlast rfl rfl (hl.le.trans hr.le).next
  | component hs hp => exact hlast rfl rfl (b.le_afterReading _).next
  | function hs ho hargs => exact hlast rfl rfl (Int.le_refl _)
  | construct ho hargs => exact hlast rfl rfl (Int.le_refl _)

end ScriptGraph
