import ScriptGraph.Graph.Basic

/-!
# Numbering

The same graph can have other ids. `Graph.rename` puts other ids for those of a graph, and `Ref.wrap`
is what becomes of an id for which 32 bits are not enough.
-/

namespace ScriptGraph

/-- Is a number a whole number of 32 bits, as ids and operations are? -/
def IsInt32 (n : Int) : Prop :=
  -2147483648 ≤ n ∧ n ≤ 2147483647
  deriving Decidable

namespace Ref

/-- The highest id of 32 bits. -/
def limit : Ref := 2147483647

/-- The id with the same last 32 bits as a whole number. Behind the limit ids go on from the lowest
one. -/
def wrap (ref : Ref) : Ref :=
  ref.bmod 4294967296

end Ref

section

/-! Each part of a graph with other ids; everything else in it stays. -/

variable (f : Ref → Ref)

def Node.rename (n : Node) : Node :=
  { n with ref := f n.ref, linked := f n.linked }

def Literal.rename (l : Literal) : Literal :=
  { l with ref := f l.ref }

def Variable.rename (v : Variable) : Variable :=
  { v with ref := f v.ref }

def Connection.rename (c : Connection) : Connection :=
  { c with source := f c.source, target := f c.target }

/-- A graph with other ids. -/
def Graph.rename (g : Graph) : Graph :=
  { g with
    globals := g.globals.map (Variable.rename f)
    nodes := g.nodes.map (Node.rename f)
    literals := g.literals.map (Literal.rename f)
    connections := g.connections.map (Connection.rename f)
    counter := f g.counter }

end

end ScriptGraph
