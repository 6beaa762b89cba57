import ScriptGraph.Graph.Basic

/-!
# Wires and names

While a program is lowered, a value is a *wire*: an output of a node, a literal or an input of the
method. A name is bound to a wire, to a global variable or to an input; there is one scope for the
whole method, and a new binding of a name hides the old one for good.
-/

namespace ScriptGraph

/-- A value in a graph. -/
structure Wire where
  /-- the type of the value -/
  type : ValueType
  /-- the node or literal that yields it, or the method -/
  ref : Ref
  /-- the output that yields it -/
  pin : Nat
  /-- was it declared public? -/
  isPublic : Bool
  deriving DecidableEq, Repr, Inhabited

namespace Wire

/-- The value at an output. -/
def atPin (type : ValueType) (ref : Ref) (pin : Nat) : Wire :=
  ⟨type, ref, pin, false⟩

/-- The value at the first output. -/
def ofRef (type : ValueType) (ref : Ref) : Wire :=
  atPin type ref 0

/-- The value of a public declaration. -/
def ofPublic (type : ValueType) (ref : Ref) : Wire :=
  ⟨type, ref, 0, true⟩

end Wire

/-- What a name stands for. -/
inductive Binding : Type where
  /-- a value, put in wherever the name is read -/
  | wire (wire : Wire)
  /-- a global variable, read and written by nodes -/
  | globalVar (type : ValueType) (ref : Ref)
  /-- an input of the method -/
  | parameter (type : ValueType) (pin : Nat)
  deriving DecidableEq, Repr, Inhabited

/-- What the names of a method stand for. -/
abbrev Scope := Dictionary Binding

/-- Binds a name to a value. -/
def Scope.bindWire (s : Scope) (name : String) (wire : Wire) : Scope :=
  s.insert name (.wire wire)

end ScriptGraph
