/-!
# Value types

The types of the values that travel along the wires of a graph: the five types that a program can
name, and the type of constants of the runtime, which has no name in the language and no default.
-/

namespace ScriptGraph

/-- The type of a value. -/
inductive ValueType : Type where
  | bool
  | int
  | float
  | vector2
  | vector3
  /-- the type of constants of the runtime: buttons, keys and axes -/
  | builtin
  deriving DecidableEq, Repr, Inhabited

namespace ValueType

/-- The type that a program names. -/
def ofName? (name : String) : Option ValueType :=
  if name = "bool" then some .bool
  else if name = "int" then some .int
  else if name = "float" then some .float
  else if name = "Vector2" then some .vector2
  else if name = "Vector3" then some .vector3
  else none

/-- The name of a type in a program and in messages. -/
def name : ValueType → String
  | .bool => "bool"
  | .int => "int"
  | .float => "float"
  | .vector2 => "Vector2"
  | .vector3 => "Vector3"
  | .builtin => "type"

/-- The name of a type in the record of a declared variable. -/
def recordName : ValueType → String
  | .bool => "Bool"
  | .int => "Int"
  | .float => "Float"
  | .vector2 => "Vector2"
  | .vector3 => "Vector3"
  | .builtin => "Type"

/-- The text of the value that a declared variable starts with. -/
def defaultText? : ValueType → Option String
  | .bool => some "false"
  | .int => some "0"
  | .float => some "0.0"
  | .vector2 => some "\x7b\"x\":0.0,\"y\":0.0\x7d"
  | .vector3 => some "\x7b\"x\":0.0,\"y\":0.0,\"z\":0.0\x7d"
  | .builtin => none

end ValueType

end ScriptGraph
