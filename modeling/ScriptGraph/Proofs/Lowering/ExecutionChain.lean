import ScriptGraph.Proofs.Compilation
import ScriptGraph.Proofs.Graph.Repair
import ScriptGraph.Proofs.Lowering.Integrity
import ScriptGraph.Proofs.Lowering.Visibility

/-!
# The chain of execution

Data finds its way through a graph by itself, but writes of global variables have to run in an order.
Lowering passes the end of the chain along, through the branches in the order of the text; a return
closes the chain, and repair closes it behind the last write. What comes out is said here in terms of
the text:

* `Stmt.chainEvents` — the *events* of a statement: its writes of global variables and its returns;
* `chainFrom` — the connections that lead from the entry through a list of stops;
* `Builder.Chained` — lowering adds exactly the stops of the events, each behind the one before;
* `Graph.Runs` — what runs next; every write lies between the entry and the exit.
-/

namespace ScriptGraph

open Lowering Relation

/-! ## Events -/

/-- What the chain of execution has a stop for. -/
inductive ChainEvent : Type where
  /-- a write of the global variable of a name -/
  | write (name : String)
  /-- a return -/
  | exit
  deriving DecidableEq, Repr

namespace Stmt

mutual

/-- The events of a statement in the order of the text, where `globals` are the names of variables
and `hidden` are the names that stand for something else. -/
def chainEvents (globals hidden : List String) : Stmt → List ChainEvent
  | .declare _ _ => []
  | .assign target _ _ _ =>
    if target.text ∈ globals ∧ target.text ∉ hidden then [.write target.text] else []
  | .branch _ thenBody none _ => bodyEvents globals hidden thenBody
  | .branch _ thenBody (some elseBody) _ =>
    bodyEvents globals hidden thenBody ++
      bodyEvents globals (hidden ++ bodyDeclared thenBody) elseBody
  | .ret _ _ => [.exit]
  | .call _ _ _ _ => []

/-- The events of a body. A declaration hides its name from then on. -/
def bodyEvents (globals hidden : List String) : List Stmt → List ChainEvent
  | [] => []
  | s :: rest => s.chainEvents globals hidden ++ bodyEvents globals (hidden ++ s.declared) rest

end

end Stmt

/-- The events of a method of a program. Parameters hide variables from the start. -/
def Program.chainEvents (p : Program) (m : Method) : List ChainEvent :=
  Stmt.bodyEvents (p.globals.map (·.name.text)) (m.params.map (·.name.text)) m.body

/-! ## Stops -/

/-- The execution connections of a graph. -/
def Graph.executions (g : Graph) : List Connection :=
  g.connections.filter (·.isExecution)

/-- The nodes that write a variable. -/
def Graph.writes (g : Graph) : List Node :=
  g.nodesWith Opcode.writeGlobal

/-- The stop of an event: a node that writes the variable that the name means, or the exit. -/
def Graph.Marks (g : Graph) : ChainEvent → Ref → Prop
  | .write name, ref => ∃ n ∈ g.writes, n.ref = ref ∧ g.latestRef? name = some n.linked
  | .exit, ref => ref = Ref.endpoint

/-- The connections from a start through some stops, one after another. -/
def chainFrom (start : Ref) : List Ref → List Connection
  | [] => []
  | stop :: stops => .execution start stop :: chainFrom stop stops

/-- Where a chain ends. -/
def chainEnd (start : Ref) : List Ref → Ref
  | [] => start
  | stop :: stops => chainEnd stop stops

/-- The last stop if it is one of a write, from which the chain still has to be closed. -/
def openEnd (events : List ChainEvent) (stops : List Ref) : List Ref :=
  match events.getLast? with
  | some (.write _) => stops.getLast?.toList
  | _ => []

theorem chainFrom_append (start : Ref) (stops stops' : List Ref) :
    chainFrom start (stops ++ stops') =
      chainFrom start stops ++ chainFrom (chainEnd start stops) stops' := by
  induction stops generalizing start with
  | nil => rfl
  | cons stop stops ih =>
    rw [List.cons_append, chainFrom, ih, chainFrom, List.cons_append, chainEnd]

theorem chainEnd_append (start : Ref) (stops stops' : List Ref) :
    chainEnd start (stops ++ stops') = chainEnd (chainEnd start stops) stops' := by
  induction stops generalizing start with
  | nil => rfl
  | cons stop stops ih => rw [List.cons_append, chainEnd, ih, chainEnd]

theorem chainFrom_targets (start : Ref) (stops : List Ref) :
    (chainFrom start stops).map (·.target) = stops := by
  induction stops generalizing start with
  | nil => rfl
  | cons stop stops ih => rw [chainFrom, List.map_cons, ih, Connection.execution]

/-- Every stop but the last has a successor, and so has the start. -/
theorem chainFrom_sources (start : Ref) (stops : List Ref) :
    (chainFrom start stops).map (·.source) ++ [chainEnd start stops] = start :: stops := by
  induction stops generalizing start with
  | nil => rfl
  | cons stop stops ih =>
    rw [chainFrom, List.map_cons, List.cons_append, chainEnd, ih, Connection.execution]

/-! ## Lowering -/

/-- `b.Chained last events stops last' b'` says what happened to the chain on the way from `b` to
`b'`: it went on from `last` through the stops of the events to `last'`, and the nodes of the writes
among them are the ones that were added. -/
structure Builder.Chained (b : Builder) (last : Ref) (events : List ChainEvent) (stops : List Ref)
    (last' : Ref) (b' : Builder) : Prop where
  executions : b'.graph.executions = b.graph.executions ++ chainFrom last stops
  last : last' = chainEnd last stops
  writes : ∃ ns, b'.graph.writes = b.graph.writes ++ ns ∧
    ns.map (·.ref) = stops.filter (· ≠ Ref.endpoint)
  globals : b'.graph.globals = b.graph.globals
  marks : List.Forall₂ b'.graph.Marks events stops

/-- A stop stays one while writes are added. -/
theorem Graph.Marks.mono {g g' : Graph} {event : ChainEvent} {ref : Ref} (h : g.Marks event ref)
    (hw : g.writes <+: g'.writes) (hg : g'.globals = g.globals) : g'.Marks event ref := by
  cases event with
  | exit => exact h
  | write name =>
    obtain ⟨n, hn, hr, hl⟩ := h
    exact ⟨n, hw.subset hn, hr, (Graph.latestRef?_congr hg name).trans hl⟩

namespace Builder.Chained

variable {b b₁ b₂ : Builder} {last last₁ last₂ : Ref} {events events' : List ChainEvent}
  {stops stops' : List Ref}

/-- Nothing happened to the chain. -/
theorem none (hx : b₁.graph.executions = b.graph.executions)
    (hw : b₁.graph.writes = b.graph.writes) (hg : b₁.graph.globals = b.graph.globals) :
    b.Chained last [] [] last b₁ :=
  ⟨by rw [hx, chainFrom, List.append_nil], rfl, ⟨[], by rw [hw, List.append_nil], rfl⟩, hg, .nil⟩

/-- One part of a chain after another. -/
theorem trans (h : b.Chained last events stops last₁ b₁)
    (h' : b₁.Chained last₁ events' stops' last₂ b₂) :
    b.Chained last (events ++ events') (stops ++ stops') last₂ b₂ := by
  obtain ⟨ns, hns, hr⟩ := h.writes
  obtain ⟨ns', hns', hr'⟩ := h'.writes
  refine ⟨?_, ?_, ⟨ns ++ ns', ?_, ?_⟩, h'.globals.trans h.globals, ?_⟩
  · rw [h'.executions, h.executions, h.last, chainFrom_append, List.append_assoc]
  · rw [h'.last, h.last, chainEnd_append]
  · rw [hns', hns, List.append_assoc]
  · rw [List.map_append, hr, hr', List.filter_append]
  · refine List.rel_append (h.marks.imp fun event ref hm => ?_) h'.marks
    exact hm.mono ⟨ns', hns'.symm⟩ h'.globals

end Builder.Chained

/-! ### Expressions leave the chain alone -/

namespace Graph

variable {g g' : Graph}

/-- New connections that carry data are no part of the chain. -/
theorem executions_eq_of_append {cs : List Connection} (h : g'.connections = g.connections ++ cs)
    (hcs : ∀ c ∈ cs, c.isExecution = false) : g'.executions = g.executions := by
  have hnil : cs.filter (·.isExecution) = [] := by
    rw [List.filter_eq_nil_iff]
    intro c hc
    rw [hcs c hc]
    exact Bool.false_ne_true
  rw [executions, h, List.filter_append, hnil, List.append_nil, executions]

/-- New nodes with another operation are no writes. -/
theorem writes_eq_of_append {ns : List Node} (h : g'.nodes = g.nodes ++ ns)
    (hns : ∀ n ∈ ns, n.opcode ≠ Opcode.writeGlobal) : g'.writes = g.writes := by
  have hnil : ns.filter (·.opcode == Opcode.writeGlobal) = [] := by
    rw [List.filter_eq_nil_iff]
    intro n hn
    rw [beq_iff_eq]
    exact hns n hn
  rw [writes, nodesWith, h, List.filter_append, hnil, List.append_nil, writes, nodesWith]

end Graph

/-- An operation that has nothing to do with variables is no write. -/
theorem Performs.ne_write {t : Builtins} (ht : t.Regular) {opcode : Opcode}
    (h : Performs t opcode) : opcode ≠ Opcode.writeGlobal := by
  intro ho
  have h0 := h.nonneg ht
  rw [ho] at h0
  exact absurd h0 (by decide)

/-- With a regular table, a step of an expression neither writes a variable nor extends the chain. -/
theorem ExprStep.quiet {t : Builtins} (ht : t.Regular) {s s' : Site} (h : ExprStep t s s') :
    s'.builder.graph.executions = s.builder.graph.executions ∧
      s'.builder.graph.writes = s.builder.graph.writes := by
  cases h with
  | note calls b event => exact ⟨rfl, rfl⟩
  | number calls b value => exact ⟨rfl, rfl⟩
  | @node calls b opcode place inputs he hw =>
    constructor
    · exact Graph.executions_eq_of_append rfl fun c hc => (mem_feeds hc).1
    · refine Graph.writes_eq_of_append rfl fun n hn => ?_
      rw [List.mem_singleton.mp hn]
      exact he.performs.ne_write ht
  | @read calls b ref hv =>
    constructor
    · exact Graph.executions_eq_of_append rfl fun c hc => (mem_feeds hc).1
    · refine Graph.writes_eq_of_append rfl fun n hn => ?_
      rw [List.mem_singleton.mp hn]
      exact (by decide : Opcode.readGlobal ≠ Opcode.writeGlobal)
  | openCall calls b => exact ⟨rfl, rfl⟩
  | @argument calls b ref ws w hw =>
    refine ⟨Graph.executions_eq_of_append rfl fun c hc => ?_, rfl⟩
    rw [List.mem_singleton.mp hc, Connection.data]
  | @closeCall calls b ref ws opcode ho =>
    refine ⟨rfl, Graph.writes_eq_of_append rfl fun n hn => ?_⟩
    rw [List.mem_singleton.mp hn]
    exact ho.performs.ne_write ht

theorem ExprSteps.quiet {t : Builtins} (ht : t.Regular) {s s' : Site} (h : ExprSteps t s s') :
    s'.builder.graph.executions = s.builder.graph.executions ∧
      s'.builder.graph.writes = s.builder.graph.writes := by
  induction h with
  | refl => exact ⟨rfl, rfl⟩
  | tail _ h ih =>
    obtain ⟨hx, hw⟩ := h.quiet ht
    exact ⟨hx.trans ih.1, hw.trans ih.2⟩

/-- With a regular table, nothing happens to the chain while an expression is lowered. -/
theorem ExprSteps.chained {t : Builtins} (ht : t.Regular) {s s' : Site} (h : ExprSteps t s s')
    (last : Ref) : s.builder.Chained last [] [] last s'.builder := by
  obtain ⟨hx, hw⟩ := h.quiet ht
  exact .none hx hw h.frame.2.1

/-- Neither does anything happen while values are carried to the outputs. -/
theorem OutputsLowered.chained {t : Builtins} (ht : t.Regular) {index : Nat} {values : List Expr}
    {b b' : Builder} (h : OutputsLowered t index values b b') (hs : b.Sound)
    (hi : index ≤ b.graph.outputs.length) (last : Ref) : b.Chained last [] [] last b' := by
  induction h with
  | nil index b => exact .none rfl rfl rfl
  | @cons index value values b b₁ b₂ w h hs' ih =>
    obtain ⟨h₁, hw⟩ := h.steps hs []
    have hi₁ : index ≤ b₁.graph.outputs.length := by
      rw [h₁.frame.2.2.2]
      exact hi
    have h₂ : Step t ⟨[], b₁⟩ _ := .output hw hi₁
    have hc₂ : b₁.Chained last [] [] last
        ((b₁.ensureOutput index).connect (.data w.ref w.pin Ref.endpoint index)) := by
      refine .none ?_ ?_ (b₁.ensureOutput_globals index)
      · simp [Graph.executions, Builder.connect, Connection.data]
      · simp [Graph.writes, Graph.nodesWith, Builder.connect]
    have hc₃ := ih (h₂.sound (hs.of_exprSteps h₁)) (Builder.lt_ensureOutput_outputs hi₁).1
    exact ((ExprSteps.chained ht h₁ last).trans hc₂).trans hc₃

/-! ### Statements extend it -/

/-- A write is a stop. -/
theorem Builder.Chained.write {b : Builder} {last ref : Ref} {name : String} {value : Wire}
    (hb : 0 < b.next) (hr : b.graph.latestRef? name = some ref) :
    b.Chained last [.write name] [b.next] b.next
      ((b.emit Opcode.writeGlobal Place.globalWrite ref [value]).connect
        (.execution last b.next)) := by
  have hne : b.next ≠ Ref.endpoint := Int.ne_of_gt (Int.lt_trans (by decide) hb)
  refine ⟨?_, rfl, ⟨[⟨Opcode.writeGlobal, b.next, Place.globalWrite, ref⟩], ?_, ?_⟩, rfl, ?_⟩
  · simp [Graph.executions, Builder.connect, Builder.emit, feeds, chainFrom, Connection.execution,
      Connection.data]
  · simp [Graph.writes, Graph.nodesWith, Builder.connect, Builder.emit]
  · simp [hne]
  · refine .cons ⟨⟨Opcode.writeGlobal, b.next, Place.globalWrite, ref⟩, ?_, rfl, hr⟩ .nil
    simp [Graph.writes, Graph.nodesWith, Builder.connect, Builder.emit]

/-- A return is a stop at the exit. -/
theorem Builder.Chained.exit (b : Builder) (last : Ref) :
    b.Chained last [.exit] [Ref.endpoint] Ref.endpoint
      (b.connect (.execution last Ref.endpoint)) := by
  refine ⟨?_, rfl, ⟨[], ?_, ?_⟩, rfl, .cons rfl .nil⟩
  · simp [Graph.executions, Builder.connect, chainFrom, Connection.execution]
  · simp [Graph.writes, Graph.nodesWith, Builder.connect]
  · simp

mutual

/-- A statement extends the chain by its events. -/
theorem StmtLowered.chained {t : Builtins} (ht : t.Regular) {condition : Option Wire}
    {last last' : Ref} {s : Stmt} {b b' : Builder} {globals hidden : List String}
    (h : StmtLowered t condition last s b last' b') (hs : b.Sound)
    (hc : ∀ w ∈ condition, b.Yields w) (hv : b.Shows hidden)
    (hg : b.graph.globals.map (·.name) = globals) :
    ∃ stops, b.Chained last (s.chainEvents globals hidden) stops last' b' := by
  cases h with
  | declarePublic hp hi ht => exact ⟨[], .none rfl rfl rfl⟩
  | declare hp hi he =>
    have h₁ := ((he.steps hs []).1).chained ht last
    exact ⟨[], h₁.trans (.none rfl rfl rfl)⟩
  | @assign _ _ target op value span _ b₁ binding new previous hb ha =>
    have hb₀ := hs.scope _ _ hb
    obtain ⟨h₁, hn, hp⟩ := ha.steps hs hb₀
    obtain ⟨h₂, -⟩ := steps_afterGating (t := t) (hb₀.mono h₁.le) hn hp
      fun w hw => (hc w hw).mono h₁.le
    have h₁₂ : ExprSteps t _ _ := h₁.trans h₂
    have hq := h₁₂.chained ht last
    obtain ⟨-, hglobals, -, -⟩ := h₁₂.frame
    rw [Stmt.chainEvents]
    cases binding with
    | globalVar type ref =>
      obtain ⟨hm, hr⟩ := hv.of_globalVar hb
      have hmem : target.text ∈ globals := by
        rw [← hg, ← Graph.latestRef?_isSome, hr]
        rfl
      rw [if_pos ⟨hmem, hm⟩]
      refine ⟨[_], hq.trans (.write (hs.of_exprSteps h₁₂).next_pos ?_)⟩
      rw [Graph.latestRef?_congr hglobals, hr]
    | wire wire =>
      have hl := (hv.of_local hb rfl).2
      rw [hg] at hl
      rw [if_neg hl]
      exact ⟨[], hq.trans (.none rfl rfl rfl)⟩
    | parameter type pin =>
      have hl := (hv.of_local hb rfl).2
      rw [hg] at hl
      rw [if_neg hl]
      exact ⟨[], hq.trans (.none rfl rfl rfl)⟩
  | branch he hb =>
    obtain ⟨h₁, hj, -⟩ := he.steps_then hs hc
    obtain ⟨hscope, hglobals, -, -⟩ := h₁.frame
    obtain ⟨stops, hstops⟩ := hb.chained ht (hs.of_exprSteps h₁) hj.some
      (hv.same hscope hglobals) ((congrArg _ hglobals).trans hg)
    exact ⟨stops, (h₁.chained ht last).trans hstops⟩
  | branchElse he hb hn hf =>
    obtain ⟨h₁, hj, hw⟩ := he.steps_then hs hc
    obtain ⟨hscope, hglobals, -, -⟩ := h₁.frame
    have hs₁ := hs.of_exprSteps h₁
    have hv₁ := hv.same hscope hglobals
    have hg₁ := (congrArg _ hglobals).trans hg
    obtain ⟨stops, hstops⟩ := hb.chained ht hs₁ hj.some hv₁ hg₁
    obtain ⟨hglobals₂, hv₂⟩ := hb.shows hs₁ hj.some hv₁
    have h₂ := hb.steps hs₁ hj.some
    obtain ⟨h₃, hj'⟩ := steps_else (t := t) hn (hw.mono h₂.le)
      fun w hw => ((hc w hw).mono h₁.le).mono h₂.le
    obtain ⟨hscope₃, hglobals₃, -, -⟩ := h₃.frame
    obtain ⟨stops', hstops'⟩ := hf.chained ht ((h₂.sound hs₁).of_exprSteps h₃) hj'.some
      (hv₂.same hscope₃ hglobals₃)
      ((congrArg _ hglobals₃).trans ((congrArg _ hglobals₂).trans hg₁))
    -- the second body goes on from where the first one ended, whatever the conditions
    have hfirst := (h₁.chained ht last).trans hstops
    have hsecond := (h₃.chained ht _).trans hstops'
    exact ⟨stops ++ stops', hfirst.trans hsecond⟩
  | ret h =>
    have h₁ := h.chained ht hs (Nat.zero_le _) last
    exact ⟨[Ref.endpoint], h₁.trans (.exit _ _)⟩
  | call h => exact ⟨[], ((h.steps hs []).1).chained ht last⟩

/-- A body extends the chain by its events. -/
theorem BodyLowered.chained {t : Builtins} (ht : t.Regular) {condition : Option Wire}
    {last last' : Ref} {body : List Stmt} {b b' : Builder} {globals hidden : List String}
    (h : BodyLowered t condition last body b last' b') (hs : b.Sound)
    (hc : ∀ w ∈ condition, b.Yields w) (hv : b.Shows hidden)
    (hg : b.graph.globals.map (·.name) = globals) :
    ∃ stops, b.Chained last (Stmt.bodyEvents globals hidden body) stops last' b' := by
  cases h with
  | nil => exact ⟨[], .none rfl rfl rfl⟩
  | cons h hr hs' =>
    obtain ⟨stops, hstops⟩ := h.chained ht hs hc hv hg
    obtain ⟨hglobals, hv₁⟩ := h.shows hs hc hv
    have h₁ := h.steps hs hc
    obtain ⟨stops', hstops'⟩ := hs'.chained ht (h₁.sound hs) (fun w hw => (hc w hw).mono h₁.le) hv₁
      ((congrArg _ hglobals).trans hg)
    exact ⟨stops ++ stops', hstops.trans hstops'⟩

end

/-! ## The whole chain -/

/-- What lowering does to the chain: it leads from the entry through the stops of the events. -/
theorem ProgramLowered.chained {t : Builtins} {p : Program} {first : Ref} {g : Graph} {m : Method}
    (h : ProgramLowered t p first g) (hf : 1 ≤ first) (ht : t.Regular) (hm : p.entry? = some m) :
    ∃ stops, List.Forall₂ g.Marks (p.chainEvents m) stops ∧
      g.executions = chainFrom Ref.endpoint stops ∧
      g.writes.map (·.ref) = stops.filter (· ≠ Ref.endpoint) := by
  obtain ⟨hg, he⟩ := h
  rename_i b₁ b₂
  rw [hm] at he
  have h₁ : Steps t _ _ := hg.steps
  have hs₁ := h₁.sound (Builder.sound_start hf)
  obtain ⟨hnames, hv₁⟩ := hg.shows (Builder.shows_start first)
  cases he with
  | @present m _ b₂ b₃ last hp hb =>
    have h₂ : Steps t _ _ := hp.steps (by rw [hg.graph_eq]; rfl)
    obtain ⟨hglobals, hv₂⟩ := hp.shows hv₁
    obtain ⟨stops, hstops⟩ := hb.chained ht (h₂.sound hs₁) (by simp) hv₂
      ((congrArg _ hglobals).trans hnames)
    obtain ⟨ns, hns, hr⟩ := hstops.writes
    -- declarations and parameters come before any node
    have hnodes : b₂.graph.writes = [] := by
      rw [hp.graph_eq.1, hg.graph_eq]
      rfl
    have hconnections : b₂.graph.executions = [] := by
      rw [hp.graph_eq.1, hg.graph_eq]
      rfl
    refine ⟨stops, hstops.marks, ?_, ?_⟩
    · have hx := hstops.executions
      rw [hconnections, List.nil_append] at hx
      exact hx
    · rw [hnodes, List.nil_append] at hns
      rw [← hr, ← hns]
      rfl

/-! ## The end of the chain -/

namespace Graph

/-- The nodes that run before a node. -/
def predecessors (g : Graph) (ref : Ref) : List Ref :=
  (g.connections.filter fun c => c.isExecution && c.target == ref).map (·.source)

/-- One node runs right after another. -/
def Runs (g : Graph) (ref ref' : Ref) : Prop :=
  ref' ∈ g.successors ref

variable {g : Graph}

/-- Only the chain makes a node run after another. -/
theorem successors_eq (g : Graph) (ref : Ref) :
    g.successors ref = (g.executions.filter fun c => c.source == ref).map (·.target) := by
  rw [successors, executions, List.filter_filter]
  simp only [Bool.and_comm]

theorem predecessors_eq (g : Graph) (ref : Ref) :
    g.predecessors ref = (g.executions.filter fun c => c.target == ref).map (·.source) := by
  rw [predecessors, executions, List.filter_filter]
  simp only [Bool.and_comm]

/-- Repair moves only nodes that are no writes. -/
theorem repair_writes (g : Graph) : g.repair.writes = g.writes := by
  rw [writes, nodesWith, repair, List.filter_map]
  have hcomp : ((fun n : Node => n.opcode == Opcode.writeGlobal) ∘ fun n =>
      if !n.isWrite && g.isUnread n then { n with place := Place.orphan } else n) =
      fun n => n.opcode == Opcode.writeGlobal := by
    funext n
    rw [Function.comp_apply]
    split <;> rfl
  rw [hcomp, writes, nodesWith]
  nth_rewrite 2 [← List.map_id (List.filter _ _)]
  refine List.map_congr_left fun n hn => ?_
  have hw : n.isWrite = true := (List.mem_filter.mp hn).2
  simp [hw]

/-- Repair adds to the end of the chain. -/
theorem repair_executions (g : Graph) :
    g.repair.executions =
      g.executions ++ g.report.chained.map (.execution · Ref.endpoint) := by
  rw [executions, repair, List.filter_append, executions]
  refine congrArg _ (List.filter_eq_self.mpr fun c hc => ?_)
  obtain ⟨ref, -, rfl⟩ := List.mem_map.mp hc
  rfl

/-- No two writes have one id. -/
theorem writes_nodup (h : g.refs.Nodup) : (g.writes.map (·.ref)).Nodup := by
  have hnodes : (g.nodes.map (·.ref)).Nodup := (List.nodup_append.mp (List.nodup_append.mp h).1).1
  exact hnodes.sublist (List.filter_sublist.map _)

end Graph

/-- By the events, the chain is open exactly if it does not end at the exit. -/
theorem openEnd_eq {g : Graph} {events : List ChainEvent} {stops : List Ref}
    (h : List.Forall₂ g.Marks events stops) (hg : ∀ n ∈ g.writes, n.ref ≠ Ref.endpoint) :
    openEnd events stops =
      if chainEnd Ref.endpoint stops = Ref.endpoint then [] else [chainEnd Ref.endpoint stops] := by
  suffices hlast : ∀ start, stops ≠ [] ∨ start = Ref.endpoint → openEnd events stops =
      if chainEnd start stops = Ref.endpoint then [] else [chainEnd start stops] from
    hlast _ (.inr rfl)
  induction h with
  | nil =>
    intro start hs
    have he : start = Ref.endpoint := hs.resolve_left (· rfl)
    simp [openEnd, chainEnd, he]
  | @cons event stop events stops hm hms ih =>
    intro start _
    cases hms with
    | nil =>
      cases event with
      | exit =>
        have he : stop = Ref.endpoint := hm
        simp [openEnd, chainEnd, he]
      | write name =>
        obtain ⟨n, hn, hr, -⟩ := hm
        have hne : stop ≠ Ref.endpoint := hr ▸ hg n hn
        simp [openEnd, chainEnd, hne]
    | @cons event' stop' events stops hm' hms =>
      rw [chainEnd, ← ih stop (.inl (List.cons_ne_nil _ _)), openEnd, openEnd,
        List.getLast?_cons_cons, List.getLast?_cons_cons]

/-- Of the stops that are writes, just the last one has no successor, if the chain ends there. -/
theorem filter_stops {stops : List Ref} {start : Ref} (hstart : start = Ref.endpoint)
    (hd : (stops.filter (· ≠ Ref.endpoint)).Nodup) :
    (stops.filter (· ≠ Ref.endpoint)).filter
        (fun r => r ∉ (chainFrom start stops).map (·.source)) =
      if chainEnd start stops = Ref.endpoint then [] else [chainEnd start stops] := by
  subst hstart
  rcases List.eq_nil_or_concat' stops with rfl | ⟨init, r, rfl⟩
  · rfl
  · have hend : chainEnd Ref.endpoint (init ++ [r]) = r := by
      rw [chainEnd_append]
      rfl
    -- the start and all stops but the last one have a successor
    have hsources : (chainFrom Ref.endpoint (init ++ [r])).map (·.source) =
        Ref.endpoint :: init := by
      have h := chainFrom_sources Ref.endpoint (init ++ [r])
      rw [hend, ← List.cons_append] at h
      exact List.append_cancel_right h
    rw [hsources, hend]
    rw [List.filter_append] at hd ⊢
    have hinit : (init.filter (· ≠ Ref.endpoint)).filter (fun s => s ∉ Ref.endpoint :: init) = [] := by
      rw [List.filter_eq_nil_iff]
      intro s hs
      have hm := (List.mem_filter.mp hs).1
      simp [hm]
    rw [List.filter_append, hinit, List.nil_append]
    by_cases hr : r = Ref.endpoint
    · simp [hr]
    · have hnew : r ∉ init := by
        intro hm
        refine (List.nodup_append.mp hd).2.2 r ?_ r ?_ rfl
        · exact List.mem_filter.mpr ⟨hm, by simpa using hr⟩
        · exact List.mem_filter.mpr ⟨List.mem_singleton_self r, by simpa using hr⟩
      simp [hr, hnew]

/-- The steps of a chain lead from its start to every stop, and from there to its end. -/
theorem chain_reaches {R : Ref → Ref → Prop} {start : Ref} {stops : List Ref}
    (h : ∀ c ∈ chainFrom start stops, R c.source c.target) {stop : Ref} (hs : stop ∈ stops) :
    TransGen R start stop ∧ ReflTransGen R stop (chainEnd start stops) := by
  induction stops generalizing start stop with
  | nil => cases hs
  | cons first stops ih =>
    have hfirst : R start first := h _ (List.mem_cons_self ..)
    have hrest : ∀ c ∈ chainFrom first stops, R c.source c.target :=
      fun c hc => h c (List.mem_cons_of_mem _ hc)
    rcases List.mem_cons.mp hs with rfl | hs
    · refine ⟨.single hfirst, ?_⟩
      cases stops with
      | nil => exact .refl
      | cons second stops =>
        obtain ⟨h₁, h₂⟩ := ih hrest (List.mem_cons_self ..)
        exact h₁.to_reflTransGen.trans h₂
    · obtain ⟨h₁, h₂⟩ := ih hrest hs
      exact ⟨.head hfirst h₁, h₂⟩

/-- In a chain that comes back to its start, every other stop that occurs once has one successor. -/
theorem chain_count_sources {start : Ref} {stops : List Ref} (hend : chainEnd start stops = start)
    {stop : Ref} (hne : stop ≠ start) :
    ((chainFrom start stops).map (·.source)).count stop = stops.count stop := by
  have h := congrArg (List.count stop) (chainFrom_sources start stops)
  rw [hend, List.count_append, List.count_cons_of_ne hne.symm, List.count_nil, Nat.add_zero,
    List.count_cons_of_ne hne.symm] at h
  exact h

/-- In a graph whose chain comes back to the entry, every stop but the exit has one predecessor and
one successor, and lies on a path from the entry to the exit. -/
theorem Graph.one_way {g : Graph} {stops : List Ref}
    (hx : g.executions = chainFrom Ref.endpoint stops)
    (hend : chainEnd Ref.endpoint stops = Ref.endpoint)
    (hd : (stops.filter (· ≠ Ref.endpoint)).Nodup) {ref : Ref}
    (hr : ref ∈ stops.filter (· ≠ Ref.endpoint)) :
    (∃ r, g.predecessors ref = [r]) ∧ (∃ r, g.successors ref = [r]) ∧
      TransGen g.Runs Ref.endpoint ref ∧ TransGen g.Runs ref Ref.endpoint := by
  obtain ⟨hmem, hne⟩ := List.mem_filter.mp hr
  have hne : ref ≠ Ref.endpoint := by simpa using hne
  -- a write is a stop once, hence once a target and once a source
  have hcount : stops.count ref = 1 := by
    rw [← List.count_filter (p := (· ≠ Ref.endpoint)) (by simpa using hne)]
    exact List.count_eq_one_of_mem hd hr
  have hruns : ∀ c ∈ chainFrom Ref.endpoint stops, g.Runs c.source c.target := by
    intro c hc
    rw [Runs, successors_eq, hx]
    exact List.mem_map_of_mem (List.mem_filter.mpr ⟨hc, by simp⟩)
  obtain ⟨hto, hfrom⟩ := chain_reaches hruns hmem
  rw [hend] at hfrom
  refine ⟨?_, ?_, hto, ?_⟩
  · rw [← List.length_eq_one_iff, predecessors_eq, List.length_map, ← List.countP_eq_length_filter,
      hx]
    rw [← chainFrom_targets Ref.endpoint stops, List.count, List.countP_map] at hcount
    exact hcount
  · rw [← List.length_eq_one_iff, successors_eq, List.length_map, ← List.countP_eq_length_filter,
      hx]
    rw [← chain_count_sources hend hne, List.count, List.countP_map] at hcount
    exact hcount
  · rcases reflTransGen_iff_eq_or_transGen.mp hfrom with he | hfrom
    · exact absurd he.symm hne
    · exact hfrom

/-- One more connection closes a chain that does not end at the exit. -/
theorem chain_close (stops : List Ref) :
    ∃ more, chainFrom Ref.endpoint stops ++
        (if chainEnd Ref.endpoint stops = Ref.endpoint then []
          else [chainEnd Ref.endpoint stops]).map (.execution · Ref.endpoint) =
        chainFrom Ref.endpoint (stops ++ more) ∧
      chainEnd Ref.endpoint (stops ++ more) = Ref.endpoint ∧
      (stops ++ more).filter (· ≠ Ref.endpoint) = stops.filter (· ≠ Ref.endpoint) := by
  by_cases h : chainEnd Ref.endpoint stops = Ref.endpoint
  · exact ⟨[], by simp [h], by simpa using h, by simp⟩
  · refine ⟨[Ref.endpoint], ?_, ?_, by simp⟩
    · rw [if_neg h, chainFrom_append]
      rfl
    · rw [chainEnd_append]
      rfl

/-- Repair closes the chain behind the writes that have no successor in it, since no data comes from
a write either. -/
theorem ProgramLowered.report_chained {t : Builtins} {p : Program} {first : Ref} {g : Graph}
    (h : ProgramLowered t p first g) (hf : 1 ≤ first) (ht : t.Regular) :
    g.report.chained =
      (g.writes.map (·.ref)).filter (fun r => r ∉ g.executions.map (·.source)) := by
  rw [Graph.report, Graph.writes, Graph.nodesWith, List.filter_map, List.filter_filter]
  refine congrArg _ (List.filter_congr fun n hn => ?_)
  rw [Bool.and_comm, Node.isWrite]
  by_cases ho : n.opcode = Opcode.writeGlobal
  · have hstores : n.Stores := ⟨ho, (h.linked_iff hf ht hn).mpr (.inr ho)⟩
    have hunread : g.isUnread n = true ↔ n.ref ∉ g.executions.map (·.source) := by
      rw [Graph.isUnread_iff]
      constructor
      · intro hall hm
        obtain ⟨c, hc, hr⟩ := List.mem_map.mp hm
        exact hall c (List.mem_filter.mp hc).1 hr
      · intro hm c hc hr
        -- a data connection from a write would break integrity, so this one is of the chain
        rcases hx : c.isExecution with _ | _
        · exact (h.intact hf).writes_end c hc hx n hn hstores hr
        · exact hm (List.mem_map.mpr ⟨c, List.mem_filter.mpr ⟨hc, hx⟩, hr⟩)
    rw [Bool.eq_iff_iff]
    simpa [ho] using hunread
  · rw [beq_false_of_ne ho, Bool.and_false, Bool.and_false]

/-- **The chain of execution.** The events of a program's entry method are its writes of global
variables and its returns in the order of the text. In the compiled graph each event has a stop, a
write node of its own for a write and the exit for a return, and the execution connections are, in
order, the ones from the entry through these stops; after a last write there is one more to the
exit, which is what the report says. So every write node has one predecessor and one successor, and
lies on a path from the entry to the exit. -/
theorem compile_execution_chain {o : Options} {source : String} {c : Compiled}
    (ht : o.builtins.Regular) (h : o.compile source = .ok c) :
    ∃ p m stops, Program.parse source = .ok p ∧ p.entry? = some m ∧
      List.Forall₂ c.graph.Marks (p.chainEvents m) stops ∧
      c.graph.writes.map (·.ref) = stops.filter (· ≠ Ref.endpoint) ∧
      (c.graph.writes.map (·.ref)).Nodup ∧
      c.graph.executions = chainFrom Ref.endpoint stops ++
        (openEnd (p.chainEvents m) stops).map (.execution · Ref.endpoint) ∧
      c.report.chained = openEnd (p.chainEvents m) stops ∧
      ∀ n ∈ c.graph.writes,
        (∃ r, c.graph.predecessors n.ref = [r]) ∧ (∃ r, c.graph.successors n.ref = [r]) ∧
        TransGen c.graph.Runs Ref.endpoint n.ref ∧ TransGen c.graph.Runs n.ref Ref.endpoint := by
  obtain ⟨hf, p, g, hp, hg, rfl⟩ := Options.compile_ok h
  have hl := ProgramLowered.of_lower hg
  obtain ⟨m, hm⟩ := Program.entry?_of_parse hp
  obtain ⟨stops, hmarks, hx, hw⟩ := hl.chained hf ht hm
  have hd := Graph.writes_nodup (hl.refs_nodup hf)
  have hne : ∀ n ∈ g.writes, n.ref ≠ Ref.endpoint := by
    intro n hn
    have hmem := List.mem_map_of_mem (f := (·.ref)) hn
    rw [hw] at hmem
    simpa using (List.mem_filter.mp hmem).2
  have hopen := openEnd_eq hmarks hne
  have hchained : g.report.chained = openEnd (p.chainEvents m) stops := by
    rw [hl.report_chained hf ht, hw, hx, filter_stops rfl (hw ▸ hd), hopen]
  have hexecutions : g.repair.executions = chainFrom Ref.endpoint stops ++
      (openEnd (p.chainEvents m) stops).map (.execution · Ref.endpoint) := by
    rw [g.repair_executions, hx, hchained]
  refine ⟨p, m, stops, hp, hm, hmarks.imp fun _ _ hk => ?_, ?_, ?_, hexecutions, hchained, ?_⟩
  · exact hk.mono (g.repair_writes ▸ List.prefix_rfl) rfl
  · rw [g.repair_writes, hw]
  · rw [g.repair_writes]
    exact hd
  · intro n hn
    obtain ⟨more, hclosed, hend, hsame⟩ := chain_close stops
    rw [← hopen, ← hexecutions] at hclosed
    refine Graph.one_way hclosed hend (by rw [hsame, ← hw]; exact hd) ?_
    rw [hsame, ← hw, ← g.repair_writes]
    exact List.mem_map_of_mem hn

/-- A source with a return in one branch and a local declaration in the other that hides a
variable. -/
def forkedWrites : String :=
  "float x; float y; def Main(bool c) \x7b x = 1; if (c) \x7b y = 2; return(x); \x7d " ++
    "else \x7b float y = x; y = 3; x = y; \x7d x = 4; \x7d"

/-- The chain of `forkedWrites` stops at both writes of the first branch and at its return, starts
anew in the second branch, where only `x` is a variable, and is closed behind the last write. -/
theorem compile_execution_chain_forkedWrites :
    Builtins.standard.Regular ∧ ∃ c stops, ({} : Options).compile forkedWrites = .ok c ∧
      List.Forall₂ c.graph.Marks [.write "x", .write "y", .exit, .write "x", .write "x"] stops ∧
      c.graph.executions = chainFrom Ref.endpoint stops ++
        stops.getLast?.toList.map (.execution · Ref.endpoint) ∧
      c.report.chained = stops.getLast?.toList := by
  have ht := Builtins.standard_regular
  have hc : (({} : Options).compile forkedWrites).toOption.isSome = true := by decide +kernel
  have he : ((Program.parse forkedWrites).toOption.bind fun p =>
      p.entry?.map fun m => p.chainEvents m) =
        some [.write "x", .write "y", .exit, .write "x", .write "x"] := by
    decide +kernel
  rcases h : ({} : Options).compile forkedWrites with e | c
  · rw [h] at hc
    cases hc
  · obtain ⟨p, m, stops, hp, hm, hmarks, -, -, hx, hr, -⟩ :=
      compile_execution_chain (o := {}) ht h
    simp only [hp, hm, Except.toOption, Option.bind_some, Option.map_some, Option.some.injEq] at he
    rw [he] at hmarks hx hr
    exact ⟨ht, c, stops, rfl, hmarks, hx, hr⟩

end ScriptGraph
