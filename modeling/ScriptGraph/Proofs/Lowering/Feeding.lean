import ScriptGraph.Proofs.Lowering.Integrity
import ScriptGraph.Proofs.Meaning.Evaluation

/-!
# Connections into one id

A node gets its connections when it is made, and the node of a call before that, one argument after
another. In between, the connections of many other nodes are made. Here it is said what this does to
the connections into a single id:

* `Site.Valid` — the invariants of a site together; the open calls have gathered their arguments;
* `Site.Valid.feedsOf_eq_nil` — nothing leads to an id that is still to be given;
* `ExprSteps.feedsOf_eq`, `Steps.feedsOf_eq` — a run leaves the connections into an old id alone, unless
  it is that of an open call, or the endpoint.
-/

namespace ScriptGraph

open Lowering Relation

/-! ## Valid sites -/

/-- The ids of the open calls. -/
def Site.openRefs (s : Site) : List Ref :=
  s.calls.map Prod.fst

/-- The open calls have gathered the connections of the arguments that they have taken. -/
def Site.Gathered (s : Site) : Prop :=
  ∀ call ∈ s.calls, s.builder.graph.feedsOf call.1 = feeds call.1 0 call.2

/-- The invariants of a site in a run that gives ids from `first` on. -/
structure Site.Valid (t : Builtins) (first : Ref) (s : Site) : Prop where
  /-- ids are above zero -/
  pos : 1 ≤ first
  /-- names stand for something in the graph -/
  sound : s.builder.Sound
  /-- every id given is in use once -/
  allocated : s.Allocated first
  /-- every connection has two ends -/
  connected : s.Connected t
  /-- the arguments of open calls lead to them -/
  gathered : s.Gathered

namespace Site.Valid

variable {t : Builtins} {first : Ref} {s s' : Site} {ref : Ref}

/-- An id is in use by a part of the graph or by an open call if it was given. -/
theorem mem_iff (h : s.Valid t first) :
    ref ∈ s.builder.graph.refs ++ s.openRefs ↔ first ≤ ref ∧ ref < s.builder.next :=
  h.allocated.perm.mem_iff.trans Int.mem_range_iff

/-- The endpoint is no id that is given. -/
theorem endpoint_lt (h : s.Valid t first) : Ref.endpoint < s.builder.next :=
  h.sound.endpoint_lt

theorem pos_of_mem (h : s.Valid t first) (hr : ref ∈ s.builder.graph.refs ++ s.openRefs) :
    0 < ref :=
  Int.lt_of_lt_of_le h.pos (h.mem_iff.mp hr).1

theorem node_mem (n : Node) (hn : n ∈ s.builder.graph.nodes) :
    n.ref ∈ s.builder.graph.refs ++ s.openRefs :=
  List.mem_append_left _ (Graph.node_ref_mem hn)

theorem node_ne_endpoint (h : s.Valid t first) {n : Node} (hn : n ∈ s.builder.graph.nodes) :
    n.ref ≠ Ref.endpoint :=
  Int.ne_of_gt (Int.lt_trans (by decide) (h.pos_of_mem (node_mem n hn)))

theorem node_lt (h : s.Valid t first) {n : Node} (hn : n ∈ s.builder.graph.nodes) :
    n.ref < s.builder.next :=
  (h.mem_iff.mp (node_mem n hn)).2

theorem open_lt (h : s.Valid t first) (hr : ref ∈ s.openRefs) : ref < s.builder.next :=
  (h.mem_iff.mp (List.mem_append_right _ hr)).2

theorem nodup (h : s.Valid t first) : (s.builder.graph.refs ++ s.openRefs).Nodup :=
  h.allocated.perm.nodup_iff.mpr (nodup_range _ _)

/-- No node has the id of an open call. -/
theorem node_not_open (h : s.Valid t first) {n : Node} (hn : n ∈ s.builder.graph.nodes) :
    n.ref ∉ s.openRefs :=
  fun ho => (List.nodup_append.mp h.nodup).2.2 _ (Graph.node_ref_mem hn) _ ho rfl

/-- Nothing leads to an id that is still to be given. -/
theorem feedsOf_eq_nil (h : s.Valid t first) (hr : s.builder.next ≤ ref) :
    s.builder.graph.feedsOf ref = [] := by
  rw [Graph.feedsOf, List.filter_eq_nil_iff]
  intro c hc hf
  obtain ⟨-, ht⟩ := Bool.and_eq_true_iff.mp hf
  have ht : c.target = ref := by simpa using ht
  rcases h.connected.targets c hc with ⟨n, hn, he⟩ | ho | ⟨he, -⟩
  · exact Int.not_le.mpr (h.node_lt hn) (he.trans ht ▸ hr)
  · exact Int.not_le.mpr (h.open_lt (ht ▸ ho)) hr
  · exact Int.not_le.mpr h.endpoint_lt (he.symm.trans ht ▸ hr)

end Site.Valid

/-! ## What a step does to one id -/

namespace Builder

/-- A new node gets connections, and no other id does. -/
theorem feedsOf_emit_of_ne (b : Builder) (opcode : Opcode) (place : Place) (linked : Ref)
    (inputs : List Wire) {ref : Ref} (h : ref ≠ b.next) :
    (b.emit opcode place linked inputs).graph.feedsOf ref = b.graph.feedsOf ref := by
  rw [Graph.feedsOf_feeds (g := b.graph) rfl, if_neg h, List.append_nil]

/-- The inputs of a new node are all that leads to it, if nothing did before. -/
theorem feedsOf_emit_self {b : Builder} (h : b.graph.feedsOf b.next = []) (opcode : Opcode)
    (place : Place) (linked : Ref) (inputs : List Wire) :
    (b.emit opcode place linked inputs).graph.feedsOf b.next = feeds b.next 0 inputs := by
  rw [Graph.feedsOf_feeds (g := b.graph) rfl, if_pos rfl, h, List.nil_append]

/-- A data connection concerns its target only. -/
theorem feedsOf_connect_of_ne (b : Builder) (w : Wire) {target ref : Ref} (h : ref ≠ target)
    (pin : Nat) :
    (b.connect (.data w.ref w.pin target pin)).graph.feedsOf ref = b.graph.feedsOf ref := by
  have hc : (b.connect (.data w.ref w.pin target pin)).graph.connections =
      b.graph.connections ++ feeds target pin [w] := rfl
  rw [Graph.feedsOf_feeds hc, if_neg h, List.append_nil]

theorem feedsOf_connect_self (b : Builder) (w : Wire) (target : Ref) (pin : Nat) :
    (b.connect (.data w.ref w.pin target pin)).graph.feedsOf target =
      b.graph.feedsOf target ++ feeds target pin [w] := by
  have hc : (b.connect (.data w.ref w.pin target pin)).graph.connections =
      b.graph.connections ++ feeds target pin [w] := rfl
  rw [Graph.feedsOf_feeds hc, if_pos rfl]

/-- An output of the method is no connection. -/
theorem feedsOf_ensureOutput (b : Builder) (index : Nat) (ref : Ref) :
    (b.ensureOutput index).graph.feedsOf ref = b.graph.feedsOf ref := by
  rw [Graph.feedsOf, b.ensureOutput_connections, Graph.feedsOf]

end Builder

/-- A step of an expression adds connections into a new node or into the innermost open call. -/
theorem ExprStep.feedsOf_eq {t : Builtins} {s s' : Site} (h : ExprStep t s s') {ref : Ref}
    (hr : ref < s.builder.next) (ho : ref ∉ s.openRefs) :
    s'.builder.graph.feedsOf ref = s.builder.graph.feedsOf ref ∧ ref ∉ s'.openRefs := by
  have hne : ref ≠ s.builder.next := Int.ne_of_lt hr
  cases h with
  | note calls b event => exact ⟨rfl, ho⟩
  | number calls b value => exact ⟨rfl, ho⟩
  | node he hw => exact ⟨Builder.feedsOf_emit_of_ne _ _ _ _ _ hne, ho⟩
  | read hv => exact ⟨Builder.feedsOf_emit_of_ne _ _ _ _ _ hne, ho⟩
  | openCall calls b => exact ⟨rfl, List.not_mem_cons_of_ne_of_not_mem hne ho⟩
  | argument hw => exact ⟨Builder.feedsOf_connect_of_ne _ _ (List.ne_of_not_mem_cons ho) _, ho⟩
  | closeCall hop => exact ⟨rfl, List.not_mem_of_not_mem_cons ho⟩

/-- A run of an expression leaves the connections into an old id alone, unless it is that of an open
call. -/
theorem ExprSteps.feedsOf_eq {t : Builtins} {s s' : Site} (h : ExprSteps t s s') {ref : Ref}
    (hr : ref < s.builder.next) (ho : ref ∉ s.openRefs) :
    s'.builder.graph.feedsOf ref = s.builder.graph.feedsOf ref ∧ ref ∉ s'.openRefs := by
  induction h with
  | refl => exact ⟨rfl, ho⟩
  | tail h₁ h₂ ih =>
    have hr₁ := Int.lt_of_lt_of_le hr (ExprSteps.le h₁).next
    obtain ⟨hf, ho₂⟩ := h₂.feedsOf_eq hr₁ ih.2
    exact ⟨hf.trans ih.1, ho₂⟩

/-- So an expression leads nothing to an output of the method. -/
theorem ExprSteps.feedsOf_endpoint {t : Builtins} {b b' : Builder}
    (h : ExprSteps t ⟨[], b⟩ ⟨[], b'⟩) (hs : b.Sound) :
    b'.graph.feedsOf Ref.endpoint = b.graph.feedsOf Ref.endpoint :=
  (h.feedsOf_eq hs.endpoint_lt List.not_mem_nil).1

/-- Neither does a store. -/
theorem Builder.feedsOf_afterStore {b : Builder} (hs : b.Sound) (name : String) (value : Wire)
    (last : Ref) (binding : Binding) :
    (b.afterStore name value last binding).graph.feedsOf Ref.endpoint =
      b.graph.feedsOf Ref.endpoint := by
  cases binding with
  | wire wire => rfl
  | parameter type pin => rfl
  | globalVar type ref =>
    exact (Graph.feedsOf_execution (g := (b.emit _ _ _ _).graph) rfl _).trans
      (b.feedsOf_emit_of_ne _ _ _ _ (Int.ne_of_lt hs.endpoint_lt))

/-- A step of a program leaves the connections into an old id alone too, unless it is the endpoint. -/
theorem Step.feedsOf_eq {t : Builtins} {s s' : Site} (h : Step t s s') {ref : Ref}
    (hr : ref < s.builder.next) (ho : ref ∉ s.openRefs) (he : ref ≠ Ref.endpoint) :
    s'.builder.graph.feedsOf ref = s.builder.graph.feedsOf ref ∧ ref ∉ s'.openRefs := by
  cases h with
  | expr h => exact h.feedsOf_eq hr ho
  | publicValue b name => exact ⟨rfl, ho⟩
  | bind hw => exact ⟨rfl, ho⟩
  | @write b target last w hv hw =>
    refine ⟨?_, ho⟩
    rw [Graph.feedsOf_execution
      (g := (b.emit Opcode.writeGlobal Place.globalWrite target [w]).graph) rfl]
    exact b.feedsOf_emit_of_ne _ _ _ _ (Int.ne_of_lt hr)
  | @output b index w hw hi =>
    exact ⟨((b.ensureOutput index).feedsOf_connect_of_ne w he index).trans
      (b.feedsOf_ensureOutput index ref), ho⟩
  | exit b last => exact ⟨Graph.feedsOf_execution (g := b.graph) rfl ref, ho⟩
  | globalVar b name type default => exact ⟨rfl, ho⟩
  | input name type pin hp => exact ⟨rfl, ho⟩

theorem Steps.feedsOf_eq {t : Builtins} {s s' : Site} (h : Steps t s s') {ref : Ref}
    (hr : ref < s.builder.next) (ho : ref ∉ s.openRefs) (he : ref ≠ Ref.endpoint) :
    s'.builder.graph.feedsOf ref = s.builder.graph.feedsOf ref ∧ ref ∉ s'.openRefs := by
  induction h with
  | refl => exact ⟨rfl, ho⟩
  | tail h₁ h₂ ih =>
    have hr₁ := Int.lt_of_lt_of_le hr (Steps.le h₁).next
    obtain ⟨hf, ho₂⟩ := h₂.feedsOf_eq hr₁ ih.2 he
    exact ⟨hf.trans ih.1, ho₂⟩

/-- The connections into a node stay as they are. -/
theorem Steps.feedsOf_node {t : Builtins} {first : Ref} {s s' : Site} (h : Steps t s s')
    (hs : s.Valid t first) {n : Node} (hn : n ∈ s.builder.graph.nodes) :
    s'.builder.graph.feedsOf n.ref = s.builder.graph.feedsOf n.ref :=
  (h.feedsOf_eq (hs.node_lt hn) (hs.node_not_open hn) (hs.node_ne_endpoint hn)).1

/-! ## Open calls -/

/-- The ids of calls that were open before the innermost one differ from it. -/
theorem Site.Valid.open_ne {t : Builtins} {first ref : Ref} {ws : List Wire}
    {calls : List (Ref × List Wire)} {b : Builder} (h : Site.Valid t first ⟨(ref, ws) :: calls, b⟩)
    {call : Ref × List Wire} (hc : call ∈ calls) : call.1 ≠ ref := by
  have hd : (ref :: calls.map Prod.fst).Nodup := (List.nodup_append.mp h.nodup).2.1
  exact fun he => (List.nodup_cons.mp hd).1 (he ▸ List.mem_map_of_mem hc)

/-- A step of an expression keeps it that the open calls have gathered their arguments. -/
theorem ExprStep.gathered {t : Builtins} {first : Ref} {s s' : Site} (h : ExprStep t s s')
    (hs : s.Valid t first) : s'.Gathered := by
  have hlt : ∀ call ∈ s.calls, call.1 ≠ s.builder.next :=
    fun call hc => Int.ne_of_lt (hs.open_lt (List.mem_map_of_mem hc))
  cases h with
  | note calls b event => exact hs.gathered
  | number calls b value => exact hs.gathered
  | node he hw =>
    intro call hc
    exact (Builder.feedsOf_emit_of_ne _ _ _ _ _ (hlt call hc)).trans (hs.gathered call hc)
  | read hv =>
    intro call hc
    exact (Builder.feedsOf_emit_of_ne _ _ _ _ _ (hlt call hc)).trans (hs.gathered call hc)
  | openCall calls b =>
    intro call hc
    rcases List.mem_cons.mp hc with rfl | hc
    · exact hs.feedsOf_eq_nil (Int.le_refl _)
    · exact hs.gathered call hc
  | @argument calls b ref ws w hw =>
    intro call hc
    rcases List.mem_cons.mp hc with rfl | hc
    · have hg : b.graph.feedsOf ref = feeds ref 0 ws := hs.gathered (ref, ws) (List.mem_cons_self ..)
      rw [b.feedsOf_connect_self, hg, feeds_append, Nat.zero_add]
    · rw [b.feedsOf_connect_of_ne w (hs.open_ne hc)]
      exact hs.gathered call (List.mem_cons_of_mem _ hc)
  | closeCall ho => exact fun call hc => hs.gathered call (List.mem_cons_of_mem _ hc)

/-- Outside of expressions no call is open. -/
theorem Step.gathered {t : Builtins} {first : Ref} {s s' : Site} (h : Step t s s')
    (hs : s.Valid t first) : s'.Gathered := by
  cases h with
  | expr h => exact h.gathered hs
  | _ => exact nofun

theorem Step.valid {t : Builtins} {first : Ref} {s s' : Site} (h : Step t s s')
    (hs : s.Valid t first) : s'.Valid t first :=
  ⟨hs.pos, h.sound hs.sound, h.allocated hs.allocated, h.connected hs.connected, h.gathered hs⟩

theorem Steps.valid {t : Builtins} {first : Ref} {s s' : Site} (h : Steps t s s')
    (hs : s.Valid t first) : s'.Valid t first := by
  induction h with
  | refl => exact hs
  | tail _ h ih => exact h.valid ih

theorem Site.valid_start (t : Builtins) {first : Ref} (h : 1 ≤ first) :
    Site.Valid t first ⟨[], Builder.start first⟩ :=
  ⟨h, Builder.sound_start h, Site.allocated_start first, Site.connected_start t first, nofun⟩

end ScriptGraph
