import ScriptGraph.Proofs.Lowering.Allocation

/-!
# Connections lead somewhere

Names stand for wires across statements and branches, and connections into the node of a call are
made before that node. So that every connection has two ends is true of a complete graph only; inside
of an expression a connection may also end at an open call. `Site.Connected` is the invariant with
open calls, `Graph.Intact` what is left of it in the graph of a program.
-/

namespace ScriptGraph

open Lowering Relation

/-- The operation of a node that belongs to no variable: one that the table of builtins lists, or
one of lowering's own. -/
inductive Performs (t : Builtins) : Opcode → Prop where
  | listed {name : String} {opcode : Opcode} (h : t.get? name = some opcode) : Performs t opcode
  | own {opcode : Opcode}
      (h : opcode ∈ [Opcode.splitVector2, Opcode.negate, Opcode.not, Opcode.buildVector2,
        Opcode.buildVector3, Opcode.splitVector3, Opcode.and, Opcode.select]) :
      Performs t opcode

/-- A node that accesses a variable is linked to a record of it; every other node is unlinked and
performs an operation that has nothing to do with variables. -/
def Node.LinkedIn (t : Builtins) (globals : List Variable) (n : Node) : Prop :=
  ((n.opcode = Opcode.readGlobal ∨ n.opcode = Opcode.writeGlobal) ∧
      ∃ v ∈ globals, v.ref = n.linked) ∨
    n.linked = Ref.unlinked ∧ Performs t n.opcode

/-- Every connection of a graph leads from a part that has a value to one that takes one, and every
node belongs to the variable that it accesses. -/
structure Graph.Intact (t : Builtins) (g : Graph) : Prop where
  /-- data comes from a node, a literal or an input of the method -/
  sources : ∀ c ∈ g.connections, c.isExecution = false →
    (∃ n ∈ g.nodes, n.ref = c.source) ∨ (∃ l ∈ g.literals, l.ref = c.source) ∨
      (c.source = Ref.endpoint ∧ c.sourcePin < g.inputs.length)
  /-- data and execution go to a node or to the endpoint, data there to an output of the method -/
  targets : ∀ c ∈ g.connections,
    (∃ n ∈ g.nodes, n.ref = c.target) ∨
      (c.target = Ref.endpoint ∧ (c.isExecution = false → c.targetPin < g.outputs.length))
  /-- nothing goes to a literal or to a variable -/
  targets_apart : ∀ c ∈ g.connections,
    (∀ l ∈ g.literals, l.ref ≠ c.target) ∧ ∀ v ∈ g.globals, v.ref ≠ c.target
  /-- no data comes from a node that writes a variable -/
  writes_end : ∀ c ∈ g.connections, c.isExecution = false →
    ∀ n ∈ g.nodes, n.Stores → c.source ≠ n.ref
  /-- nodes are linked to the variables that they access, and to nothing else -/
  links : ∀ n ∈ g.nodes, n.LinkedIn t g.globals

/-! ## Opcodes -/

theorem Emission.performs {t : Builtins} {opcode : Opcode} {place : Place} {inputs : List Wire}
    (h : Emission t opcode place inputs) : Performs t opcode := by
  cases h with
  | constant h => exact .listed h
  | negate w => exact .own (by simp)
  | not w => exact .own (by simp)
  | split w => exact .own (by split <;> simp)
  | operator h => exact .listed h
  | and outer inner => exact .own (by simp)
  | select condition new previous => exact .own (by simp)

theorem CallOpcode.performs {t : Builtins} {opcode : Opcode} (h : CallOpcode t opcode) :
    Performs t opcode := by
  cases h with
  | function h => exact .listed h
  | @construct type opcode valueType h =>
    rw [constructor?] at h
    split at h
    · cases h
      exact .own (by simp)
    · split at h
      · cases h
        exact .own (by simp)
      · cases h

/-! ## The invariant -/

/-- A connection ends at a node, at an open call or at an output. -/
def Site.Lands (s : Site) (c : Connection) : Prop :=
  (∃ n ∈ s.builder.graph.nodes, n.ref = c.target) ∨ c.target ∈ s.calls.map Prod.fst ∨
    (c.target = Ref.endpoint ∧
      (c.isExecution = false → c.targetPin < s.builder.graph.outputs.length))

/-- Every connection has two ends, and every node belongs to what it accesses. -/
structure Site.Connected (t : Builtins) (s : Site) : Prop where
  sources : ∀ c ∈ s.builder.graph.connections, c.isExecution = false →
    s.builder.YieldsAt c.source c.sourcePin
  targets : ∀ c ∈ s.builder.graph.connections, s.Lands c
  links : ∀ n ∈ s.builder.graph.nodes, n.LinkedIn t s.builder.graph.globals

/-- The end of a connection stays while the graph grows. -/
theorem Site.Lands.mono {s s' : Site} {c : Connection} (h : s.Lands c)
    (hle : s.builder.Le s'.builder)
    (hcalls : ∀ r ∈ s.calls.map Prod.fst,
      r ∈ s'.calls.map Prod.fst ∨ ∃ n ∈ s'.builder.graph.nodes, n.ref = r)
    (houtputs : s.builder.graph.outputs.length ≤ s'.builder.graph.outputs.length) :
    s'.Lands c := by
  rcases h with ⟨n, hn, hr⟩ | hr | ⟨he, hp⟩
  · exact .inl ⟨n, hle.nodes.subset hn, hr⟩
  · rcases hcalls _ hr with hr | hr
    · exact .inr (.inl hr)
    · exact .inl hr
  · exact .inr (.inr ⟨he, fun hx => Nat.lt_of_lt_of_le (hp hx) houtputs⟩)

/-- A link stays while declarations are added. -/
theorem Node.LinkedIn.mono {t : Builtins} {globals globals' : List Variable} {n : Node}
    (h : n.LinkedIn t globals) (hg : globals <+: globals') : n.LinkedIn t globals' := by
  rcases h with ⟨ho, v, hv, hr⟩ | h
  · exact .inl ⟨ho, v, hg.subset hv, hr⟩
  · exact .inr h

/-- A site stays connected if the nodes and connections that are added to it are in order. -/
theorem Site.Connected.grow {t : Builtins} {s s' : Site} (h : s.Connected t)
    (hle : s.builder.Le s'.builder)
    (hcalls : ∀ r ∈ s.calls.map Prod.fst,
      r ∈ s'.calls.map Prod.fst ∨ ∃ n ∈ s'.builder.graph.nodes, n.ref = r)
    (houtputs : s.builder.graph.outputs.length ≤ s'.builder.graph.outputs.length)
    (ns : List Node) (hn : s'.builder.graph.nodes = s.builder.graph.nodes ++ ns)
    (hns : ∀ n ∈ ns, n.LinkedIn t s'.builder.graph.globals)
    (cs : List Connection)
    (hc : s'.builder.graph.connections = s.builder.graph.connections ++ cs)
    (hcs : ∀ c ∈ cs, (c.isExecution = false → s'.builder.YieldsAt c.source c.sourcePin) ∧
      s'.Lands c) : s'.Connected t := by
  refine ⟨fun c hm hx => ?_, fun c hm => ?_, fun n hm => ?_⟩
  · rw [hc] at hm
    rcases List.mem_append.mp hm with hm | hm
    · exact (h.sources c hm hx).mono hle
    · exact (hcs c hm).1 hx
  · rw [hc] at hm
    rcases List.mem_append.mp hm with hm | hm
    · exact (h.targets c hm).mono hle hcalls houtputs
    · exact (hcs c hm).2
  · rw [hn] at hm
    rcases List.mem_append.mp hm with hm | hm
    · exact (h.links n hm).mono hle.globals
    · exact hns n hm

/-- A site stays connected if no node and no connection is added to it. -/
theorem Site.Connected.quiet {t : Builtins} {s s' : Site} (h : s.Connected t)
    (hle : s.builder.Le s'.builder)
    (hcalls : s.calls.map Prod.fst ⊆ s'.calls.map Prod.fst)
    (houtputs : s'.builder.graph.outputs = s.builder.graph.outputs)
    (hn : s'.builder.graph.nodes = s.builder.graph.nodes)
    (hc : s'.builder.graph.connections = s.builder.graph.connections) : s'.Connected t := by
  refine h.grow hle (fun r hr => .inl (hcalls hr)) (by rw [houtputs]) [] ?_ ?_ [] ?_ ?_
  · rw [hn, List.append_nil]
  · simp
  · rw [hc, List.append_nil]
  · simp

/-- The connections into a node that was just added, with all its inputs. -/
theorem Site.lands_emit {calls : List (Ref × List Wire)} {b : Builder} {opcode : Opcode}
    {place : Place} {linked : Ref} {inputs : List Wire} (hw : ∀ w ∈ inputs, b.Yields w) :
    ∀ c ∈ feeds b.next 0 inputs,
      (c.isExecution = false →
        (b.emit opcode place linked inputs).YieldsAt c.source c.sourcePin) ∧
      Site.Lands ⟨calls, b.emit opcode place linked inputs⟩ c := by
  intro c hc
  obtain ⟨-, ht, w, hwm, hs, hp⟩ := mem_feeds hc
  refine ⟨fun _ => ?_, .inl ⟨⟨opcode, b.next, place, linked⟩, by simp [Builder.emit], ht.symm⟩⟩
  rw [hs, hp]
  exact (hw w hwm).mono (b.le_emit _ _ _ _)

theorem ExprStep.connected {t : Builtins} {s s' : Site} (h : ExprStep t s s')
    (hs : s.Connected t) : s'.Connected t := by
  have hle := h.le
  cases h with
  | note calls b event => exact hs.quiet hle (List.Subset.refl _) rfl rfl rfl
  | number calls b value => exact hs.quiet hle (List.Subset.refl _) rfl rfl rfl
  | @node calls b opcode place inputs he hw =>
    refine hs.grow hle (fun r hr => .inl hr) (le_refl _) [⟨opcode, b.next, place, Ref.unlinked⟩] rfl
      ?_ (feeds b.next 0 inputs) rfl (Site.lands_emit hw)
    intro n hn
    rw [List.mem_singleton.mp hn]
    exact .inr ⟨rfl, he.performs⟩
  | @read calls b ref hv =>
    refine hs.grow hle (fun r hr => .inl hr) (le_refl _)
      [⟨Opcode.readGlobal, b.next, Place.origin, ref⟩] rfl ?_ (feeds b.next 0 []) rfl
      (Site.lands_emit (by simp))
    intro n hn
    rw [List.mem_singleton.mp hn]
    exact .inl ⟨.inl rfl, hv⟩
  | openCall calls b => exact hs.quiet hle (List.subset_cons_self _ _) rfl rfl rfl
  | @argument calls b ref ws w hw =>
    refine hs.grow hle (fun r hr => .inl hr) (le_refl _) [] (by simp [Builder.connect]) (by simp)
      [.data w.ref w.pin ref ws.length] rfl ?_
    intro c hc
    rw [List.mem_singleton.mp hc]
    exact ⟨fun _ => hw.mono (b.le_connect _), .inr (.inl (List.mem_cons_self ..))⟩
  | @closeCall calls b ref ws opcode ho =>
    refine hs.grow hle ?_ (le_refl _)
      [⟨opcode, ref, placeFor (ws.any (·.isPublic)), Ref.unlinked⟩] rfl ?_ []
      (by simp [Builder.addNode]) (by simp)
    · intro r hr
      rcases List.mem_cons.mp hr with rfl | hr
      · exact .inr ⟨_, List.mem_append_right _ (List.mem_singleton_self _), rfl⟩
      · exact .inl hr
    · intro n hn
      rw [List.mem_singleton.mp hn]
      exact .inr ⟨rfl, ho.performs⟩

theorem Step.connected {t : Builtins} {s s' : Site} (h : Step t s s') (hs : s.Connected t) :
    s'.Connected t := by
  have hle := h.le
  cases h with
  | expr h => exact h.connected hs
  | publicValue b name => exact hs.quiet hle (List.Subset.refl _) rfl rfl rfl
  | bind hw => exact hs.quiet hle (List.Subset.refl _) rfl rfl rfl
  | @write b ref last w hv hw =>
    -- the write takes its value, then its place in the chain
    have hs₁ : Site.Connected t ⟨[], b.emit Opcode.writeGlobal Place.globalWrite ref [w]⟩ := by
      refine hs.grow (b.le_emit _ _ _ _) (fun r hr => .inl hr) (le_refl _)
        [⟨Opcode.writeGlobal, b.next, Place.globalWrite, ref⟩] rfl ?_ (feeds b.next 0 [w]) rfl
        (Site.lands_emit (by simpa using hw))
      intro n hn
      rw [List.mem_singleton.mp hn]
      exact .inl ⟨.inr rfl, hv⟩
    refine hs₁.grow (Builder.le_connect _ _) (fun r hr => .inl hr) (le_refl _) []
      (by simp [Builder.connect]) (by simp) [.execution last b.next] rfl ?_
    intro c hc
    rw [List.mem_singleton.mp hc]
    refine ⟨fun hd => ?_, .inl ⟨⟨Opcode.writeGlobal, b.next, Place.globalWrite, ref⟩, ?_, rfl⟩⟩
    · cases hd
    simp [Builder.connect, Builder.emit]
  | @output b index w hw hi =>
    obtain ⟨hlen, hout⟩ := Builder.lt_ensureOutput_outputs hi
    refine hs.grow hle (fun r hr => .inl hr) hout [] (by simp [Builder.connect]) (by simp)
      [.data w.ref w.pin Ref.endpoint index] (by simp [Builder.connect]) ?_
    intro c hc
    rw [List.mem_singleton.mp hc]
    exact ⟨fun _ => hw.mono hle, .inr (.inr ⟨rfl, fun _ => hlen⟩)⟩
  | exit b last =>
    refine hs.grow hle (fun r hr => .inl hr) (le_refl _) [] (by simp [Builder.connect]) (by simp)
      [.execution last Ref.endpoint] rfl ?_
    intro c hc
    rw [List.mem_singleton.mp hc]
    refine ⟨fun hd => ?_, .inr (.inr ⟨rfl, fun hd => ?_⟩)⟩
    · cases hd
    · cases hd
  | globalVar b name type default => exact hs.quiet hle (List.Subset.refl _) rfl rfl rfl
  | input name type pin hp => exact hs.quiet hle (List.Subset.refl _) rfl rfl rfl

theorem Steps.connected {t : Builtins} {s s' : Site} (h : Steps t s s') (hs : s.Connected t) :
    s'.Connected t := by
  induction h with
  | refl => exact hs
  | tail _ h ih => exact h.connected ih

theorem Site.connected_start (t : Builtins) (first : Ref) :
    Site.Connected t ⟨[], Builder.start first⟩ := by
  refine ⟨fun c hc => ?_, fun c hc => ?_, fun n hn => ?_⟩
  · simp [Builder.start, Graph.empty] at hc
  · simp [Builder.start, Graph.empty] at hc
  · simp [Builder.start, Graph.empty] at hn

/-! ## Parts with one id -/

namespace Graph

variable {g : Graph}

/-- A node is known by its id. -/
theorem node_eq_of_ref_eq (h : g.refs.Nodup) {n n' : Node} (hn : n ∈ g.nodes) (hn' : n' ∈ g.nodes)
    (he : n.ref = n'.ref) : n = n' := by
  have hd : (g.nodes.map (·.ref)).Nodup := (List.nodup_append.mp (List.nodup_append.mp h).1).1
  exact List.inj_on_of_nodup_map hd hn hn' he

/-- So is a literal. -/
theorem literal_eq_of_ref_eq (h : g.refs.Nodup) {l l' : Literal} (hl : l ∈ g.literals)
    (hl' : l' ∈ g.literals) (he : l.ref = l'.ref) : l = l' := by
  have hd : (g.literals.map (·.ref)).Nodup := (List.nodup_append.mp (List.nodup_append.mp h).1).2.1
  exact List.inj_on_of_nodup_map hd hl hl' he

/-- A node and a literal have different ids. -/
theorem node_ref_ne_literal (h : g.refs.Nodup) {n : Node} {l : Literal} (hn : n ∈ g.nodes)
    (hl : l ∈ g.literals) : n.ref ≠ l.ref :=
  (List.nodup_append.mp (List.nodup_append.mp h).1).2.2 _ (List.mem_map_of_mem hn) _
    (List.mem_map_of_mem hl)

/-- A node and a variable have different ids. -/
theorem node_ref_ne_global (h : g.refs.Nodup) {n : Node} {v : Variable} (hn : n ∈ g.nodes)
    (hv : v ∈ g.globals) : n.ref ≠ v.ref :=
  (List.nodup_append.mp h).2.2 _ (List.mem_append_left _ (List.mem_map_of_mem hn)) _
    (List.mem_map_of_mem hv)

theorem node_ref_mem {n : Node} (hn : n ∈ g.nodes) : n.ref ∈ g.refs :=
  List.mem_append_left _ (List.mem_append_left _ (List.mem_map_of_mem hn))

theorem literal_ref_mem {l : Literal} (hl : l ∈ g.literals) : l.ref ∈ g.refs :=
  List.mem_append_left _ (List.mem_append_right _ (List.mem_map_of_mem hl))

theorem global_ref_mem {v : Variable} (hv : v ∈ g.globals) : v.ref ∈ g.refs :=
  List.mem_append_right _ (List.mem_map_of_mem hv)

end Graph

/-- A table of builtins that leaves the opcodes below zero to lowering. -/
def Builtins.Regular (t : Builtins) : Prop :=
  ∀ e ∈ t.entries, 0 ≤ e.2

theorem Builtins.standard_regular : Builtins.standard.Regular := by
  unfold Builtins.Regular
  decide +kernel

/-- What a regular table lists is no access to a variable. -/
theorem Builtins.Regular.nonneg {t : Builtins} (h : t.Regular) {name : String} {opcode : Opcode}
    (ho : t.get? name = some opcode) : 0 ≤ opcode := by
  obtain ⟨l₁, l₂, he, -⟩ := List.lookup_eq_some_iff.mp ho
  exact h (name, opcode) (by rw [he]; simp)

/-- With a regular table, a node that belongs to no variable does not access one. -/
theorem Performs.nonneg {t : Builtins} (ht : t.Regular) {opcode : Opcode} (h : Performs t opcode) :
    0 ≤ opcode := by
  cases h with
  | listed h => exact ht.nonneg h
  | own h =>
    have hall : ∀ o ∈ [Opcode.splitVector2, Opcode.negate, Opcode.not, Opcode.buildVector2,
        Opcode.buildVector3, Opcode.splitVector3, Opcode.and, Opcode.select], 0 ≤ o := by
      decide
    exact hall opcode h

/-- The variables of a program's graph have ids above zero. -/
theorem ProgramLowered.globals_pos {t : Builtins} {p : Program} {first : Ref} {g : Graph}
    (h : ProgramLowered t p first g) (hf : 1 ≤ first) : ∀ v ∈ g.globals, 0 < v.ref := by
  obtain ⟨b, hb, rfl⟩ := h.steps hf
  exact (hb.sound (Builder.sound_start hf)).globals_pos

/-- The graph of a program is intact. -/
theorem ProgramLowered.intact {t : Builtins} {p : Program} {first : Ref} {g : Graph}
    (h : ProgramLowered t p first g) (hf : 1 ≤ first) : g.Intact t := by
  have hd := h.refs_nodup hf
  have hpos : ∀ r ∈ g.refs, r ≠ Ref.endpoint := by
    intro r hr
    have hr : 0 < r := Int.lt_of_lt_of_le hf ((h.mem_refs hf).mp hr).1
    exact Int.ne_of_gt (Int.lt_trans (by decide) hr)
  obtain ⟨b, hb, rfl⟩ := h.steps hf
  have hc := hb.connected (Site.connected_start t first)
  -- at the end no call is open, so every connection ends at a node or at an output
  have htargets : ∀ c ∈ b.graph.connections,
      (∃ n ∈ b.graph.nodes, n.ref = c.target) ∨
        (c.target = Ref.endpoint ∧
          (c.isExecution = false → c.targetPin < b.graph.outputs.length)) := by
    intro c hm
    rcases hc.targets c hm with ht | ht | ht
    · exact .inl ht
    · simp at ht
    · exact .inr ht
  refine ⟨fun c hm hx => ?_, htargets, fun c hm => ?_, fun c hm hx n hn hs he => ?_, hc.links⟩
  · rcases hc.sources c hm hx with ht | ht | ⟨n, hn, hr, -⟩
    · exact .inr (.inr ht)
    · exact .inr (.inl ht)
    · exact .inl ⟨n, hn, hr⟩
  · rcases htargets c hm with ⟨n, hn, hr⟩ | ⟨he, -⟩
    · rw [← hr]
      exact ⟨fun l hl => (Graph.node_ref_ne_literal hd hn hl).symm,
        fun v hv => (Graph.node_ref_ne_global hd hn hv).symm⟩
    · rw [he]
      exact ⟨fun l hl => hpos _ (Graph.literal_ref_mem hl),
        fun v hv => hpos _ (Graph.global_ref_mem hv)⟩
  · rcases hc.sources c hm hx with ⟨hr, -⟩ | ⟨l, hl, hr⟩ | ⟨n', hn', hr, hns⟩
    · exact hpos _ (Graph.node_ref_mem hn) (he ▸ hr)
    · exact Graph.node_ref_ne_literal hd hn hl (he ▸ hr.symm)
    · exact hns (Graph.node_eq_of_ref_eq hd hn' hn (hr.trans he) ▸ hs)

/-- With a regular table, the linked nodes are just those whose opcode says that they access a
variable. -/
theorem ProgramLowered.linked_iff {t : Builtins} {p : Program} {first : Ref} {g : Graph}
    (h : ProgramLowered t p first g) (hf : 1 ≤ first) (ht : t.Regular) {n : Node}
    (hn : n ∈ g.nodes) :
    n.linked ≠ Ref.unlinked ↔ n.opcode = Opcode.readGlobal ∨ n.opcode = Opcode.writeGlobal := by
  rcases (h.intact hf).links n hn with ⟨ho, v, hv, hr⟩ | ⟨hu, hp⟩
  · refine iff_of_true ?_ ho
    rw [← hr]
    exact Int.ne_of_gt (Int.lt_trans (by decide) (h.globals_pos hf v hv))
  · refine iff_of_false (not_not.mpr hu) ?_
    have h0 := hp.nonneg ht
    rintro (ho | ho)
    · exact absurd (ho ▸ h0) (by decide)
    · exact absurd (ho ▸ h0) (by decide)

end ScriptGraph
