import Mathlib.Data.List.Nodup
import ScriptGraph.Graph.Repair

/-!
# Repair of any graph

Repair asks of every node whether a connection starts at its id, and adds connections for some of
the nodes for which none does. Here it is said what this does to a graph of whatever origin: ids may
occur twice, and connections may lead nowhere.

* `Graph.Sweep` — the repair as a walk along the nodes, with one rule for each kind of node;
* `Graph.sweep_iff` — the nodes after a repair and its report are what the walk leads to;
* `Graph.isUnread_repair` — a repair makes its chained writes read, with all nodes of their ids;
* `Graph.repair_sweeps` — what a repair does, and that a second one does nothing more.
-/

namespace ScriptGraph

namespace Graph

variable {g : Graph} {n : Node}

/-- No connection, of either kind, starts at the id of a node. -/
def Unread (g : Graph) (n : Node) : Prop :=
  ∀ c ∈ g.connections, c.source ≠ n.ref

theorem isUnread_iff : g.isUnread n = true ↔ g.Unread n := by
  simp [isUnread, Unread]

/-- `g.Sweep ns ns' r` says that a walk along the nodes `ns` of `g` leaves the nodes `ns'` and the
report `r`. Whether a node is unread is asked of `g` as it was before the walk. -/
inductive Sweep (g : Graph) : List Node → List Node → Report → Prop where
  /-- there are no more nodes -/
  | done : Sweep g [] [] ⟨[], []⟩
  /-- a node that is read is passed over -/
  | pass {n : Node} {ns ns' : List Node} {chained orphans : List Ref} (hr : ¬g.Unread n)
      (h : Sweep g ns ns' ⟨chained, orphans⟩) : Sweep g (n :: ns) (n :: ns') ⟨chained, orphans⟩
  /-- an unread write of a global variable is chained -/
  | chain {n : Node} {ns ns' : List Node} {chained orphans : List Ref} (hr : g.Unread n)
      (hw : n.opcode = Opcode.writeGlobal) (h : Sweep g ns ns' ⟨chained, orphans⟩) :
      Sweep g (n :: ns) (n :: ns') ⟨n.ref :: chained, orphans⟩
  /-- any other unread node is moved aside, and stays as it was apart from its place -/
  | move {n : Node} {ns ns' : List Node} {chained orphans : List Ref} (hr : g.Unread n)
      (hw : n.opcode ≠ Opcode.writeGlobal) (h : Sweep g ns ns' ⟨chained, orphans⟩) :
      Sweep g (n :: ns) (⟨n.opcode, n.ref, Place.orphan, n.linked⟩ :: ns')
        ⟨chained, n.ref :: orphans⟩

/-! ## One repair -/

/-- A node after a repair of its graph. -/
def repairNode (g : Graph) (n : Node) : Node :=
  if !n.isWrite && g.isUnread n then { n with place := Place.orphan } else n

theorem nodes_repair (g : Graph) : g.repair.nodes = g.nodes.map g.repairNode :=
  rfl

/-- A repair moves nodes, and no more. -/
theorem repairNode_eq (g : Graph) (n : Node) :
    g.repairNode n = { n with place := (g.repairNode n).place } := by
  rw [repairNode]
  split <;> rfl

theorem ref_repairNode (g : Graph) (n : Node) : (g.repairNode n).ref = n.ref := by
  rw [repairNode_eq]

theorem isWrite_repairNode (g : Graph) (n : Node) : (g.repairNode n).isWrite = n.isWrite := by
  rw [repairNode_eq]
  rfl

/-- What a repair would report of some nodes of a graph. -/
def reportOn (g : Graph) (ns : List Node) : Report where
  chained := (ns.filter fun n => n.isWrite && g.isUnread n).map (·.ref)
  orphans := (ns.filter fun n => !n.isWrite && g.isUnread n).map (·.ref)

/-- Every walk along some nodes leads to their repair. -/
theorem Sweep.eq {ns ns' : List Node} {r : Report} (h : g.Sweep ns ns' r) :
    ns' = ns.map g.repairNode ∧ r = g.reportOn ns := by
  induction h with
  | done => exact ⟨rfl, rfl⟩
  | pass hr _ ih =>
    have hread := Bool.eq_false_iff.mpr (mt isUnread_iff.mp hr)
    simp_all [repairNode, reportOn]
  | chain hr hw _ ih =>
    have hread := isUnread_iff.mpr hr
    simp_all [repairNode, reportOn, Node.isWrite]
  | move hr hw _ ih =>
    have hread := isUnread_iff.mpr hr
    simp_all [repairNode, reportOn, Node.isWrite]

/-- There is such a walk: each node falls under one of the rules. -/
theorem sweep_reportOn (g : Graph) (ns : List Node) :
    g.Sweep ns (ns.map g.repairNode) (g.reportOn ns) := by
  have hexists : ∃ ns' r, g.Sweep ns ns' r := by
    induction ns with
    | nil => exact ⟨[], _, .done⟩
    | cons n ns ih =>
      obtain ⟨ns', r, h⟩ := ih
      by_cases hr : g.Unread n
      · by_cases hw : n.opcode = Opcode.writeGlobal
        · exact ⟨_, _, .chain hr hw h⟩
        · exact ⟨_, _, .move hr hw h⟩
      · exact ⟨_, _, .pass hr h⟩
  obtain ⟨ns', r, h⟩ := hexists
  obtain ⟨rfl, rfl⟩ := h.eq
  exact h

/-- The nodes after a repair and its report are what a walk along the nodes leads to. -/
theorem sweep_iff {ns : List Node} {r : Report} :
    g.Sweep g.nodes ns r ↔ ns = g.repair.nodes ∧ r = g.report := by
  refine ⟨Sweep.eq, ?_⟩
  rintro ⟨rfl, rfl⟩
  exact g.sweep_reportOn g.nodes

/-! ## A second repair -/

/-- After a repair the nodes are read that were read before, and those with the id of a chained
write. -/
theorem isUnread_repair (g : Graph) (n : Node) :
    g.repair.isUnread n = (g.isUnread n && decide (n.ref ∉ g.report.chained)) := by
  rw [Bool.eq_iff_iff, Bool.and_eq_true, isUnread_iff, isUnread_iff, decide_eq_true_iff]
  constructor
  · intro h
    refine ⟨fun c hc => h c (List.mem_append_left _ hc), fun hm => ?_⟩
    exact h (.execution n.ref Ref.endpoint) (List.mem_append_right _ (List.mem_map_of_mem hm)) rfl
  · rintro ⟨h, hm⟩ c hc
    rcases List.mem_append.mp hc with hc | hc
    · exact h c hc
    · obtain ⟨ref, href, rfl⟩ := List.mem_map.mp hc
      exact fun he => hm (he ▸ href)

theorem mem_chained (hn : n ∈ g.nodes) (hw : n.isWrite = true) (hr : g.isUnread n = true) :
    n.ref ∈ g.report.chained :=
  List.mem_map_of_mem (List.mem_filter.mpr ⟨hn, by rw [hw, hr]; rfl⟩)

/-- A repair leaves no write unread. -/
theorem chained_repair (g : Graph) : g.repair.report.chained = [] := by
  rw [report, List.map_eq_nil_iff, List.filter_eq_nil_iff, nodes_repair, List.forall_mem_map]
  intro n hn hu
  rw [isWrite_repairNode, isUnread_repair, ref_repairNode, Bool.and_eq_true, Bool.and_eq_true,
    decide_eq_true_iff] at hu
  obtain ⟨hw, hr, hm⟩ := hu
  have hr : g.isUnread n = true := by
    rwa [isUnread, ref_repairNode] at hr
  exact hm (mem_chained hn hw hr)

/-- What is still unread was moved aside before. -/
theorem repairNode_repair (g : Graph) (n : Node) :
    g.repair.repairNode (g.repairNode n) = g.repairNode n := by
  by_cases h : (!n.isWrite && g.isUnread n) = true
  · have hmoved : g.repairNode n = { n with place := Place.orphan } := if_pos h
    rw [hmoved, repairNode]
    split <;> rfl
  · have hkept : g.repairNode n = n := if_neg h
    rw [hkept, repairNode, if_neg]
    intro hu
    rw [isUnread_repair] at hu
    simp only [Bool.and_eq_true] at h hu
    exact h ⟨hu.1, hu.2.1⟩

/-- A second repair changes nothing. -/
theorem repair_repair (g : Graph) : g.repair.repair = g.repair := by
  have hnodes : g.repair.repair.nodes = g.repair.nodes := by
    rw [nodes_repair, nodes_repair, List.map_map]
    exact List.map_congr_left fun n _ => g.repairNode_repair n
  have hconnections : g.repair.repair.connections = g.repair.connections := by
    rw [repair, chained_repair, List.map_nil, List.append_nil]
  calc g.repair.repair
      = { g.repair with nodes := g.repair.repair.nodes,
                        connections := g.repair.repair.connections } := rfl
    _ = g.repair := by rw [hnodes, hconnections]

/-- A second repair reports the orphans again, apart from those that share their id with a chained
write. -/
theorem orphans_repair (g : Graph) :
    g.repair.report.orphans = g.report.orphans.filter (· ∉ g.report.chained) := by
  have hstill (n : Node) :
      (!(g.repairNode n).isWrite && g.repair.isUnread (g.repairNode n)) =
        (decide (n.ref ∉ g.report.chained) && (!n.isWrite && g.isUnread n)) := by
    have hr : g.repair.isUnread (g.repairNode n) = g.repair.isUnread n := by
      rw [isUnread, ref_repairNode, isUnread]
    rw [isWrite_repairNode, hr, isUnread_repair, ← Bool.and_assoc, Bool.and_comm]
  calc g.repair.report.orphans
      = (g.nodes.filter fun n => decide (n.ref ∉ g.report.chained) &&
          (!n.isWrite && g.isUnread n)).map (·.ref) := by
        simp only [report, nodes_repair, List.filter_map, List.map_map, Function.comp_def, hstill,
          ref_repairNode]
    _ = g.report.orphans.filter (· ∉ g.report.chained) := by
        rw [← List.filter_filter]
        exact (List.filter_map (p := fun ref => decide (ref ∉ g.report.chained))).symm

/-- Where ids are not shared, no orphan has the id of a chained write. -/
theorem notMem_chained_of_mem_orphans {ref : Ref} (hd : (g.nodes.map (·.ref)).Nodup)
    (h : ref ∈ g.report.orphans) : ref ∉ g.report.chained := by
  intro hc
  obtain ⟨n, hn, rfl⟩ := List.mem_map.mp h
  obtain ⟨m, hm, he⟩ := List.mem_map.mp hc
  obtain ⟨hn, hu⟩ := List.mem_filter.mp hn
  obtain ⟨hm, hw⟩ := List.mem_filter.mp hm
  obtain rfl : m = n := List.inj_on_of_nodup_map hd hm hn he
  simp only [Bool.and_eq_true, Bool.not_eq_true'] at hu hw
  rw [hu.1] at hw
  cases hw.1

/-- **Repair.** For any graph: a repair goes along the nodes and chains the unread writes and moves
the other unread nodes aside, in the order of the nodes; it adds one execution connection to the
exit for each chained write, in this order, and changes nothing else. A second repair changes nothing
and chains nothing. It reports the orphans again whose id no chained write has, hence all of them if
no two nodes share an id. -/
theorem repair_sweeps (g : Graph) :
    (∀ ns r, g.Sweep g.nodes ns r ↔ ns = g.repair.nodes ∧ r = g.report) ∧
      g.repair = { g with
        nodes := g.repair.nodes
        connections := g.connections ++
          g.report.chained.map fun ref => Connection.execution ref Ref.endpoint } ∧
      g.repair.repair = g.repair ∧ g.repair.report.chained = [] ∧
      g.repair.report.orphans = g.report.orphans.filter (· ∉ g.report.chained) ∧
      ((g.nodes.map (·.ref)).Nodup → g.repair.report.orphans = g.report.orphans) := by
  refine ⟨fun ns r => sweep_iff, rfl, g.repair_repair, g.chained_repair, g.orphans_repair,
    fun hd => ?_⟩
  rw [g.orphans_repair, List.filter_eq_self]
  intro ref href
  simpa using notMem_chained_of_mem_orphans hd href

/-- A graph with a write and a sum that are unread, a constant that is read, and a connection from
nowhere. -/
def loose : Graph where
  nodes := [⟨Opcode.writeGlobal, 4, Place.globalWrite, 1⟩, ⟨5, 2, Place.origin, Ref.unlinked⟩,
    ⟨80, 3, Place.origin, Ref.unlinked⟩]
  connections := [.data 3 0 2 0, .data 9 0 2 1, .data 3 0 4 0, .execution Ref.endpoint 4]

/-- Both repairs of `loose` report its sum, and only the first one its write. -/
theorem repair_sweeps_loose :
    (loose.nodes.map (·.ref)).Nodup ∧ loose.report = ⟨[4], [2]⟩ ∧
      loose.repair.report = ⟨[], [2]⟩ ∧
      loose.repair.connections = loose.connections ++ [.execution 4 Ref.endpoint] ∧
      loose.repair.repair = loose.repair := by
  have hd : (loose.nodes.map (·.ref)).Nodup := by decide
  have hreport : loose.report = ⟨[4], [2]⟩ := by decide
  obtain ⟨-, hrepair, hsecond, hchained, -, horphans⟩ := loose.repair_sweeps
  have horphans := horphans hd
  refine ⟨hd, hreport, ?_, ?_, hsecond⟩
  · rw [hreport] at horphans
    calc loose.repair.report
        = ⟨loose.repair.report.chained, loose.repair.report.orphans⟩ := rfl
      _ = ⟨[], [2]⟩ := by rw [hchained, horphans]
  · rw [hrepair, hreport]
    rfl

/-- Where a write and another node share an id, the second repair does not see the other node. -/
example :
    let g : Graph :=
      { nodes := [⟨Opcode.writeGlobal, 2, Place.origin, 1⟩, ⟨5, 2, Place.origin, Ref.unlinked⟩] }
    g.report = ⟨[2], [2]⟩ ∧ g.repair.report = ⟨[], []⟩ := by
  decide

end Graph

end ScriptGraph
