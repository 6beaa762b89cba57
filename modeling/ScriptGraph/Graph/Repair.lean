import ScriptGraph.Graph.Basic

/-!
# Repair of unread nodes

Only once a graph is complete is it known which nodes nothing follows. A node from which no
connection of either kind starts is *unread*. Repair gives every unread write of a global variable
an execution connection to the exit, and moves every other unread node to a place of its own.
-/

namespace ScriptGraph

/-- What a repair did. -/
structure Report where
  /-- the writes that were connected to the exit -/
  chained : List Ref
  /-- the nodes that were moved aside -/
  orphans : List Ref
  deriving DecidableEq, Repr, Inhabited

/-- Was there nothing to repair? -/
def Report.isClean (r : Report) : Bool :=
  r.chained.isEmpty && r.orphans.isEmpty

namespace Graph

/-- Does no connection start from a node? -/
def isUnread (g : Graph) (n : Node) : Bool :=
  !g.connections.any fun c => c.source == n.ref

/-- What a repair of the graph does. -/
def report (g : Graph) : Report where
  chained := (g.nodes.filter fun n => n.isWrite && g.isUnread n).map (·.ref)
  orphans := (g.nodes.filter fun n => !n.isWrite && g.isUnread n).map (·.ref)

/-- The graph after its repair. -/
def repair (g : Graph) : Graph :=
  { g with
    nodes := g.nodes.map fun n =>
      if !n.isWrite && g.isUnread n then { n with place := Place.orphan } else n
    connections :=
      g.connections ++ g.report.chained.map fun ref => Connection.execution ref Ref.endpoint }

end Graph

end ScriptGraph
