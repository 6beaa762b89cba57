import Mathlib.Data.List.Induction
import ScriptGraph.Proofs.Lowering.Feeding

/-!
# Nodes stand behind what they read

Ids say nothing about the order in which data is computed: a call has a smaller id than its
arguments. The list of nodes does. A node enters the graph when all that leads to it is there, and
nothing more is led to it afterwards, so its inputs come from the nodes before it.

* `Graph.Ready` — all that leads to a node is there once some nodes are visited;
* `Graph.Ordered` — every node is ready once the nodes before it are visited;
* `Steps.ordered` — lowering keeps a graph ordered;
* `Graph.Ordered.rank_lt` — data flows upwards in an ordered graph, so it never flows in a circle;
* `Graph.Ordered.known` — an evaluation of an ordered graph never lacks a value.
-/

namespace ScriptGraph

open Lowering Relation

namespace Graph

/-- An output is an input of the method, a literal, or an output of one of the given nodes that is no
write. -/
def Supplied (g : Graph) (done : List Node) (ref : Ref) (pin : Nat) : Prop :=
  (ref = Ref.endpoint ∧ pin < g.inputs.length) ∨
    (∃ l ∈ g.literals, l.ref = ref) ∨
    ∃ n ∈ done, n.ref = ref ∧ ¬n.Stores

/-- All that leads to a node is supplied, and a write has something to write. -/
structure Ready (g : Graph) (done : List Node) (n : Node) : Prop where
  supplied : ∀ c ∈ g.feedsOf n.ref, g.Supplied done c.source c.sourcePin
  stores : n.Stores → g.feedsOf n.ref ≠ []

/-- Every node is ready once the nodes before it are visited. -/
def Ordered (g : Graph) : Prop :=
  ∀ before n behind, g.nodes = before ++ n :: behind → g.Ready before n

variable {g g' : Graph}

theorem mem_feedsOf {c : Connection} {ref : Ref} :
    c ∈ g.feedsOf ref ↔ c ∈ g.connections ∧ c.isExecution = false ∧ c.target = ref := by
  simp [feedsOf, List.mem_filter]

/-! ## Lowering keeps the order -/

/-- What is supplied stays supplied while inputs and literals are added. -/
theorem Supplied.mono {done : List Node} {ref : Ref} {pin : Nat} (h : g.Supplied done ref pin)
    (hi : g.inputs <+: g'.inputs) (hl : g.literals <+: g'.literals) :
    g'.Supplied done ref pin := by
  rcases h with ⟨he, hp⟩ | ⟨l, hm, hr⟩ | h
  · exact .inl ⟨he, Nat.lt_of_lt_of_le hp hi.length_le⟩
  · exact .inr (.inl ⟨l, hl.subset hm, hr⟩)
  · exact .inr (.inr h)

theorem Ready.mono {done : List Node} {n : Node} (h : g.Ready done n) (hi : g.inputs <+: g'.inputs)
    (hl : g.literals <+: g'.literals) (hf : g'.feedsOf n.ref = g.feedsOf n.ref) :
    g'.Ready done n := by
  refine ⟨fun c hc => ?_, fun hs => hf ▸ h.stores hs⟩
  rw [hf] at hc
  exact (h.supplied c hc).mono hi hl

/-- A graph stays ordered if its nodes keep what leads to them. -/
theorem Ordered.keep (h : g.Ordered) (hn : g'.nodes = g.nodes) (hi : g.inputs <+: g'.inputs)
    (hl : g.literals <+: g'.literals) (hf : ∀ n ∈ g.nodes, g'.feedsOf n.ref = g.feedsOf n.ref) :
    g'.Ordered := by
  intro before n behind he
  rw [hn] at he
  exact (h before n behind he).mono hi hl (hf n (by simp [he]))

/-- A graph stays ordered if its nodes keep what leads to them and the new one is ready. -/
theorem Ordered.snoc {n : Node} (h : g.Ordered) (hn : g'.nodes = g.nodes ++ [n])
    (hi : g.inputs <+: g'.inputs) (hl : g.literals <+: g'.literals)
    (hf : ∀ n ∈ g.nodes, g'.feedsOf n.ref = g.feedsOf n.ref) (hready : g'.Ready g.nodes n) :
    g'.Ordered := by
  intro before k behind he
  rw [hn] at he
  rcases List.eq_nil_or_concat behind with rfl | ⟨behind, last, rfl⟩
  · obtain ⟨rfl, hk⟩ := List.append_inj' he rfl
    obtain rfl := List.singleton_inj.mp hk
    exact hready
  · have he : g.nodes ++ [n] = (before ++ k :: behind) ++ [last] := by simpa using he
    have he := (List.append_inj' he rfl).1
    exact (h before k behind he).mono hi hl (hf k (by simp [he]))

end Graph

/-- A node with all its inputs is ready, if they have values. -/
theorem Builder.ready_emit {b : Builder} (h : b.graph.feedsOf b.next = []) {opcode : Opcode}
    {place : Place} {linked : Ref} {inputs : List Wire} (hw : ∀ w ∈ inputs, b.Yields w)
    (hs : (⟨opcode, b.next, place, linked⟩ : Node).Stores → inputs ≠ []) :
    (b.emit opcode place linked inputs).graph.Ready b.graph.nodes
      ⟨opcode, b.next, place, linked⟩ := by
  have hf := Builder.feedsOf_emit_self h opcode place linked inputs
  refine ⟨fun c hc => ?_, fun hstores hnil => ?_⟩
  · rw [hf] at hc
    obtain ⟨-, -, w, hm, hsource, hpin⟩ := mem_feeds hc
    rw [hsource, hpin]
    exact hw w hm
  · rw [hf] at hnil
    cases inputs with
    | nil => exact hs hstores rfl
    | cons w inputs => simp [feeds] at hnil

/-- A step of an expression keeps the graph ordered: a node has its inputs before it is added. -/
theorem ExprStep.ordered {t : Builtins} {first : Ref} {s s' : Site} (h : ExprStep t s s')
    (hs : s.Valid t first) (ho : s.builder.graph.Ordered) : s'.builder.graph.Ordered := by
  have hle := h.le
  have hf : ∀ n ∈ s.builder.graph.nodes,
      s'.builder.graph.feedsOf n.ref = s.builder.graph.feedsOf n.ref :=
    fun n hn => Steps.feedsOf_node (.single (.expr h)) hs hn
  have hnew := hs.feedsOf_eq_nil (Int.le_refl _)
  cases h with
  | note calls b event => exact ho.keep rfl hle.inputs hle.literals hf
  | number calls b value => exact ho.keep rfl hle.inputs hle.literals hf
  | node he hw =>
    exact ho.snoc rfl hle.inputs hle.literals hf
      (Builder.ready_emit hnew hw fun hstores => absurd rfl hstores.2)
  | read hv =>
    have hne : Opcode.readGlobal ≠ Opcode.writeGlobal := by decide
    exact ho.snoc rfl hle.inputs hle.literals hf
      (Builder.ready_emit hnew (by simp) fun hstores => absurd hstores.1 hne)
  | openCall calls b => exact ho.keep rfl hle.inputs hle.literals hf
  | argument hw => exact ho.keep rfl hle.inputs hle.literals hf
  | closeCall hop =>
    -- what leads to the call came while it was open, from parts that were there
    refine ho.snoc rfl hle.inputs hle.literals hf ⟨fun c hc => ?_, fun hstores => absurd rfl hstores.2⟩
    obtain ⟨hm, hx, -⟩ := Graph.mem_feedsOf.mp hc
    exact hs.connected.sources c hm hx

theorem Step.ordered {t : Builtins} {first : Ref} {s s' : Site} (h : Step t s s')
    (hs : s.Valid t first) (ho : s.builder.graph.Ordered) : s'.builder.graph.Ordered := by
  have hle := h.le
  have hf : ∀ n ∈ s.builder.graph.nodes,
      s'.builder.graph.feedsOf n.ref = s.builder.graph.feedsOf n.ref :=
    fun n hn => Steps.feedsOf_node (.single h) hs hn
  cases h with
  | expr h => exact h.ordered hs ho
  | publicValue b name => exact ho.keep rfl hle.inputs hle.literals hf
  | bind hw => exact ho
  | @write b ref last w hv hw =>
    have hready : (b.emit Opcode.writeGlobal Place.globalWrite ref [w]).graph.Ready b.graph.nodes
        ⟨Opcode.writeGlobal, b.next, Place.globalWrite, ref⟩ :=
      Builder.ready_emit (hs.feedsOf_eq_nil (Int.le_refl _)) (by simpa using hw)
        fun _ => List.cons_ne_nil w []
    refine ho.snoc rfl hle.inputs hle.literals hf (hready.mono List.prefix_rfl List.prefix_rfl ?_)
    exact Graph.feedsOf_execution
      (g := (b.emit Opcode.writeGlobal Place.globalWrite ref [w]).graph) rfl b.next
  | @output b index w hw hi =>
    exact ho.keep (b.ensureOutput_nodes index) hle.inputs hle.literals hf
  | exit b last => exact ho.keep rfl hle.inputs hle.literals hf
  | globalVar b name type default => exact ho.keep rfl hle.inputs hle.literals hf
  | input name type pin hp => exact ho.keep rfl hle.inputs hle.literals hf

/-- Lowering keeps the graph ordered. -/
theorem Steps.ordered {t : Builtins} {first : Ref} {s s' : Site} (h : Steps t s s')
    (hs : s.Valid t first) (ho : s.builder.graph.Ordered) : s'.builder.graph.Ordered := by
  induction h with
  | refl => exact ho
  | tail h₁ h₂ ih => exact h₂.ordered (Steps.valid h₁ hs) ih

/-! ## Data flows upwards -/

/-- The ends of data connections. The endpoint is two of them: values enter the method there and
results leave it. -/
inductive Vertex where
  /-- the inputs of the method -/
  | entry
  /-- the outputs of the method -/
  | exit
  /-- a node or a literal -/
  | part (ref : Ref)
  deriving DecidableEq, Repr

/-- Where a connection starts. -/
def Connection.start (c : Connection) : Vertex :=
  if c.source = Ref.endpoint then .entry else .part c.source

/-- Where a connection ends. -/
def Connection.finish (c : Connection) : Vertex :=
  if c.target = Ref.endpoint then .exit else .part c.target

namespace Graph

/-- A data connection leads from one end to the other. -/
def Flows (g : Graph) (x y : Vertex) : Prop :=
  ∃ c ∈ g.connections, c.isExecution = false ∧ c.start = x ∧ c.finish = y

/-- How far up a part stands: below all nodes, at a node of the list, or above all of them. -/
def rank (g : Graph) : Vertex → Nat
  | .entry => 0
  | .exit => g.nodes.length + 1
  | .part ref => if ref ∈ g.nodes.map (·.ref) then (g.nodes.map (·.ref)).idxOf ref + 1 else 0

variable {g : Graph}

theorem rank_lt_exit (x : Vertex) (hx : x ≠ .exit) : g.rank x < g.rank .exit := by
  cases x with
  | entry => exact Nat.succ_pos _
  | exit => exact absurd rfl hx
  | part ref =>
    rw [rank, rank]
    split
    · next hm =>
      have hlt := List.idxOf_lt_length_of_mem hm
      rw [List.length_map] at hlt
      exact Nat.succ_lt_succ hlt
    · exact Nat.succ_pos _

/-- What some nodes at the beginning supply stands lower than the next node. -/
theorem Supplied.rank_lt (hd : g.refs.Nodup) {before behind : List Node} {n : Node}
    (hn : g.nodes = before ++ n :: behind) {ref : Ref} {pin : Nat}
    (h : g.Supplied before ref pin) (hr : ref ≠ Ref.endpoint) :
    g.rank (.part ref) ≤ before.length := by
  rw [rank]
  rcases h with ⟨he, -⟩ | ⟨l, hl, rfl⟩ | ⟨k, hk, rfl, -⟩
  · exact absurd he hr
  · have hm : l.ref ∉ g.nodes.map (·.ref) := by
      intro hm
      obtain ⟨k, hk, hr⟩ := List.mem_map.mp hm
      exact node_ref_ne_literal hd hk hl hr
    rw [if_neg hm]
    exact Nat.zero_le _
  · have hk' : k.ref ∈ before.map (·.ref) := List.mem_map_of_mem hk
    have hm : k.ref ∈ g.nodes.map (·.ref) := by
      rw [hn, List.map_append]
      exact List.mem_append_left _ hk'
    rw [if_pos hm, hn, List.map_append, List.idxOf_append_of_mem hk']
    have hlt := List.idxOf_lt_length_of_mem hk'
    rwa [List.length_map] at hlt

/-- A node of the list stands where the list says. -/
theorem rank_node (hd : g.refs.Nodup) {before behind : List Node} {n : Node}
    (hn : g.nodes = before ++ n :: behind) : g.rank (.part n.ref) = before.length + 1 := by
  have hd : (g.nodes.map (·.ref)).Nodup := (List.nodup_append.mp (List.nodup_append.mp hd).1).1
  have hm : n.ref ∈ g.nodes.map (·.ref) := List.mem_map_of_mem (by simp [hn])
  rw [rank, if_pos hm]
  rw [hn, List.map_append] at hd ⊢
  have hnot : n.ref ∉ before.map (·.ref) :=
    fun hb => (List.nodup_append.mp hd).2.2 _ hb _ (by simp) rfl
  rw [List.idxOf_append_of_notMem hnot, List.map_cons, List.idxOf_cons_self, List.length_map]

/-- Data flows upwards in an ordered graph. -/
theorem Ordered.rank_lt (ho : g.Ordered) (hd : g.refs.Nodup)
    (ht : ∀ c ∈ g.connections, (∃ n ∈ g.nodes, n.ref = c.target) ∨ c.target = Ref.endpoint)
    {x y : Vertex} (h : g.Flows x y) : g.rank x < g.rank y := by
  obtain ⟨c, hc, hx, rfl, rfl⟩ := h
  by_cases he : c.target = Ref.endpoint
  · rw [Connection.finish, if_pos he]
    refine rank_lt_exit _ ?_
    rw [Connection.start]
    split <;> simp
  · obtain ⟨n, hn, hr⟩ := (ht c hc).resolve_right he
    obtain ⟨before, behind, hsplit⟩ := List.append_of_mem hn
    rw [Connection.finish, if_neg he, ← hr, rank_node hd hsplit, Connection.start]
    split
    · exact Nat.succ_pos _
    · next hsource =>
      have hsupplied := (ho before n behind hsplit).supplied c (mem_feedsOf.mpr ⟨hc, hx, hr.symm⟩)
      exact Nat.lt_succ_of_le (hsupplied.rank_lt hd hsplit hsource)

theorem Ordered.rank_lt_of_transGen (ho : g.Ordered) (hd : g.refs.Nodup)
    (ht : ∀ c ∈ g.connections, (∃ n ∈ g.nodes, n.ref = c.target) ∨ c.target = Ref.endpoint)
    {x y : Vertex} (h : TransGen g.Flows x y) : g.rank x < g.rank y := by
  induction h with
  | single h => exact ho.rank_lt hd ht h
  | tail _ h ih => exact Nat.lt_trans ih (ho.rank_lt hd ht h)

/-! ## Evaluation in the order of the list -/

section

variable {V : Type} (rt : Runtime V) (args : Nat → V)

/-- What some nodes supply has a value. -/
def Known (g : Graph) (done : List Node) (m : Memory V) : Prop :=
  ∀ ref pin, g.Supplied done ref pin → (g.value? rt args m ref pin).isSome

variable {rt args} {done : List Node} {n : Node} {m m' : Memory V}

/-- The arguments and the literals have values in every memory. -/
theorem known_nil (g : Graph) (m : Memory V) : g.Known rt args [] m := by
  rintro ref pin (⟨he, -⟩ | ⟨l, hl, hr⟩ | ⟨n, hn, -⟩)
  · rw [value?, if_pos he]
    rfl
  · rw [value?]
    split
    · rfl
    · split
      · rfl
      · rw [Option.isSome_map, List.find?_isSome]
        exact ⟨l, hl, by simpa using hr⟩
  · simp at hn

/-- Values along connections that start at known outputs. -/
theorem Known.inputValues? (hk : g.Known rt args done m) {ref : Ref}
    (hs : ∀ c ∈ g.feedsOf ref, g.Supplied done c.source c.sourcePin) :
    ∃ vs, g.inputValues? rt args m ref = some vs ∧ vs.length = (g.feedsOf ref).length := by
  have hall : ∀ c ∈ g.dataInputs ref, ∃ v, g.value? rt args m c.source c.sourcePin = some v := by
    intro c hc
    rw [dataInputs_eq, List.mem_mergeSort] at hc
    exact Option.isSome_iff_exists.mp (hk _ _ (hs c hc))
  obtain ⟨vs, hvs⟩ : ∃ vs, List.Forall₂
      (fun c v => g.value? rt args m c.source c.sourcePin = some v) (g.dataInputs ref) vs := by
    generalize g.dataInputs ref = cs at hall
    induction cs with
    | nil => exact ⟨[], .nil⟩
    | cons c cs ih =>
      obtain ⟨v, hv⟩ := hall c (List.mem_cons_self ..)
      obtain ⟨vs, hvs⟩ := ih fun c' hc' => hall c' (List.mem_cons_of_mem _ hc')
      exact ⟨v :: vs, .cons hv hvs⟩
  refine ⟨vs, mapM_eq_some_iff.mpr hvs, ?_⟩
  rw [← hvs.length_eq, dataInputs_eq, List.length_mergeSort]

/-- A node that yields makes its outputs known. -/
theorem Known.yield (hk : g.Known rt args done m) (n : Node) (outputs : Nat → V) :
    g.Known rt args (done ++ [n]) (m.yield n.ref outputs) := by
  intro ref pin hs
  by_cases hr : ref = n.ref
  · subst hr
    by_cases he : n.ref = Ref.endpoint
    · rw [value?, if_pos he]
      rfl
    · rw [value?_yield_self he]
      rfl
  · rw [value?_yield_of_ne hr]
    refine hk ref pin ?_
    rcases hs with hs | hs | ⟨k, hmem, hkr, hstores⟩
    · exact .inl hs
    · exact .inr (.inl hs)
    · rcases List.mem_append.mp hmem with hmem | hmem
      · exact .inr (.inr ⟨k, hmem, hkr, hstores⟩)
      · rw [List.mem_singleton.mp hmem] at hkr
        exact absurd hkr.symm hr

/-- A write supplies nothing. -/
theorem Known.write (hk : g.Known rt args done m) (hs : n.Stores) (ref : Ref) (v : V) :
    g.Known rt args (done ++ [n]) (m.write ref v) := by
  intro source pin hsource
  refine hk source pin ?_
  rcases hsource with h | h | ⟨k, hmem, hkr, hstores⟩
  · exact .inl h
  · exact .inr (.inl h)
  · rcases List.mem_append.mp hmem with hmem | hmem
    · exact .inr (.inr ⟨k, hmem, hkr, hstores⟩)
    · rw [List.mem_singleton.mp hmem] at hstores
      exact absurd hs hstores

/-- A node that is ready can be visited. -/
theorem Ready.visit (hr : g.Ready done n) (hk : g.Known rt args done m) :
    ∃ m', g.visit rt args m n = some m' ∧ g.Known rt args (done ++ [n]) m' := by
  obtain ⟨vs, hvs, hlen⟩ := hk.inputValues? hr.supplied
  have hvisit : g.visit rt args m n = perform rt m n vs := by
    rw [Graph.visit, hvs]
    rfl
  rw [hvisit, perform]
  split
  · exact ⟨_, rfl, hk.yield n _⟩
  · split
    · next hstores =>
      cases vs with
      | nil => exact absurd (List.length_eq_zero_iff.mp hlen.symm) (hr.stores hstores)
      | cons v vs => exact ⟨_, rfl, hk.write hstores _ v⟩
    · exact ⟨_, rfl, hk.yield n _⟩

/-- **An evaluation never lacks a value.** In an ordered graph every beginning of the list of nodes can
be visited, and then what those nodes supply is known. -/
theorem Ordered.known (ho : g.Ordered) (store : Ref → V) (before behind : List Node)
    (hn : g.nodes = before ++ behind) :
    ∃ m, before.foldlM (g.visit rt args) ⟨fun _ => none, store⟩ = some m ∧
      g.Known rt args before m := by
  induction before using List.reverseRecOn generalizing behind with
  | nil => exact ⟨_, rfl, known_nil g _⟩
  | append_singleton before n ih =>
    have hn : g.nodes = before ++ n :: behind := by simpa using hn
    obtain ⟨m, hm, hk⟩ := ih (n :: behind) hn
    obtain ⟨m', hm', hk'⟩ := (ho before n behind hn).visit hk
    refine ⟨m', ?_, hk'⟩
    rw [List.foldlM_append, hm]
    simpa using hm'

end

/-! ## Programs -/

/-- The data of a graph can be computed node by node. -/
structure Sequential (g : Graph) : Prop where
  /-- a node stands behind those that it reads -/
  earlier : ∀ c ∈ g.connections, c.isExecution = false →
    ∀ (i j : Nat) (n k : Node), g.nodes[i]? = some n → g.nodes[j]? = some k →
      n.ref = c.source → k.ref = c.target → i < j
  /-- no data goes to a literal -/
  literals : ∀ c ∈ g.connections, c.isExecution = false → ∀ l ∈ g.literals, l.ref ≠ c.target
  /-- data does not flow in a circle -/
  acyclic : ∀ x, ¬TransGen g.Flows x x
  /-- when its turn comes, every node has its inputs -/
  inputs : ∀ (V : Type) (rt : Runtime V) (args : Nat → V) (store : Ref → V) (before behind : List Node)
    (n : Node), g.nodes = before ++ n :: behind →
    ∃ m vs, before.foldlM (g.visit rt args) ⟨fun _ => none, store⟩ = some m ∧
      g.inputValues? rt args m n.ref = some vs
  /-- the evaluation ends, and the outputs of the method have values -/
  results : ∀ (V : Type) (rt : Runtime V) (args : Nat → V) (store : Ref → V),
    ∃ m vs, g.run rt args store = some m ∧ g.results? rt args m = some vs

end Graph

theorem ProgramLowered.ordered {t : Builtins} {p : Program} {first : Ref} {g : Graph}
    (h : ProgramLowered t p first g) (hf : 1 ≤ first) :
    g.Ordered ∧ ∀ c ∈ g.connections, c.isExecution = false →
      g.Supplied g.nodes c.source c.sourcePin := by
  obtain ⟨b, hb, rfl⟩ := h.steps hf
  have hempty : (Builder.start first).graph.Ordered := by
    intro before n behind hn
    simp [Builder.start, Graph.empty] at hn
  have ho := hb.ordered (Site.valid_start t hf) hempty
  exact ⟨ho.keep rfl List.prefix_rfl List.prefix_rfl fun _ _ => rfl,
    (hb.connected (Site.connected_start t first)).sources⟩

/-- **Data is computed in the order of the nodes.** In the graph of a program the node that yields a
value stands before the node that takes it, no data goes to a literal, data does not flow in a circle,
and an evaluation that visits the nodes in their order finds every input computed. -/
theorem lower_sequential {t : Builtins} {p : Program} {first : Ref} {g : Graph} (hf : 1 ≤ first)
    (h : p.lower t first = .ok g) : g.Sequential := by
  have hg := ProgramLowered.of_lower h
  have hd := hg.refs_nodup hf
  obtain ⟨ho, hsources⟩ := hg.ordered hf
  have hi := hg.intact hf
  have htargets : ∀ c ∈ g.connections,
      (∃ n ∈ g.nodes, n.ref = c.target) ∨ c.target = Ref.endpoint :=
    fun c hc => (hi.targets c hc).imp_right And.left
  have hpos : ∀ n ∈ g.nodes, n.ref ≠ Ref.endpoint := by
    intro n hn
    have hn := ((hg.mem_refs hf).mp (Graph.node_ref_mem hn)).1
    exact Int.ne_of_gt (Int.lt_of_lt_of_le (by decide) (Int.le_trans hf hn))
  have hrank : ∀ i n, g.nodes[i]? = some n → g.rank (.part n.ref) = i + 1 := by
    intro i n hn
    obtain ⟨hlt, rfl⟩ := List.getElem?_eq_some_iff.mp hn
    have hsplit : g.nodes = g.nodes.take i ++ g.nodes[i] :: g.nodes.drop (i + 1) := by simp
    rw [Graph.rank_node hd hsplit, List.length_take, Nat.min_eq_left (Nat.le_of_lt hlt)]
  refine ⟨fun c hc hx i j n k hn hk hs ht => ?_, fun c hc hx => (hi.targets_apart c hc).1,
    fun x hcycle => ?_, fun V rt args store before behind n hsplit => ?_, fun V rt args store => ?_⟩
  · have hflow : g.Flows (.part n.ref) (.part k.ref) := by
      refine ⟨c, hc, hx, ?_, ?_⟩
      · rw [Connection.start, ← hs, if_neg (hpos n (List.mem_of_getElem? hn))]
      · rw [Connection.finish, ← ht, if_neg (hpos k (List.mem_of_getElem? hk))]
    have hlt := ho.rank_lt hd htargets hflow
    rw [hrank i n hn, hrank j k hk] at hlt
    exact Nat.lt_of_succ_lt_succ hlt
  · exact Nat.lt_irrefl _ (ho.rank_lt_of_transGen hd htargets hcycle)
  · obtain ⟨m, hm, hk⟩ := ho.known store before (n :: behind) hsplit
    obtain ⟨vs, hvs, -⟩ := hk.inputValues? (ho before n behind hsplit).supplied
    exact ⟨m, vs, hm, hvs⟩
  · obtain ⟨m, hm, hk⟩ := ho.known store g.nodes [] (by simp)
    have hsupplied : ∀ c ∈ g.feedsOf Ref.endpoint, g.Supplied g.nodes c.source c.sourcePin := by
      intro c hc
      obtain ⟨hm, hx, -⟩ := Graph.mem_feedsOf.mp hc
      exact hsources c hm hx
    obtain ⟨vs, hvs, -⟩ := hk.inputValues? hsupplied
    exact ⟨m, vs, hm, hvs⟩

/-- A source in which calls stand inside of a call, and a local is used behind a branch that changes
it. -/
def sharedValues : String :=
  "float x; def Main(bool c, float a) \x7b float y = Math.clamp(Math.abs(a), 0, a_button); " ++
    "if (c) \x7b y = y + x; \x7d x = y; return(y, c); \x7d"

/-- In `sharedValues` the outer call takes its id before the inner one, and its node comes later. -/
theorem lower_sequential_sharedValues :
    ∃ p g, Program.parse sharedValues = .ok p ∧ p.lower Builtins.standard 1 = .ok g ∧
      g.Sequential := by
  obtain ⟨p, g, hp, hg⟩ := exists_lowered sharedValues Builtins.standard 1 (by decide +kernel)
  exact ⟨p, g, hp, hg, lower_sequential (by decide) hg⟩

end ScriptGraph
