import ScriptGraph.Dictionary
import ScriptGraph.Json.Reader
import ScriptGraph.Text.LowerCase
import ScriptGraph.ValueType

/-!
# Builtin operations of the runtime

Every node of a graph runs one operation of the runtime, known by its opcode. Opcodes below zero
access global variables; the others number the builtin operations, whose names a table lists:

* an operator stands under its symbol, and its variant for vectors under the symbol behind a `V`;
* a function stands under its class, a dot and its name in lower case;
* a constant stands under its name.

Programs may spell functions and constants in any case: the look-up lowers the name, except for the
class. `insert` lowers the name of a function too, but leaves all other names as they are.
-/

namespace ScriptGraph

/-- The number of an operation. -/
abbrev Opcode := Int

namespace Opcode

/-- Reads a global variable. -/
def readGlobal : Opcode := -3

/-- Writes a global variable. -/
def writeGlobal : Opcode := -4

/-- Splits a value other than a vector of three components. -/
def splitVector2 : Opcode := 3

/-- Changes the sign. -/
def negate : Opcode := 4

/-- Negates a truth value. -/
def not : Opcode := 15

/-- Builds a vector of two components. -/
def buildVector2 : Opcode := 16

/-- Builds a vector of three components. -/
def buildVector3 : Opcode := 18

/-- Splits a vector of three components. -/
def splitVector3 : Opcode := 27

/-- Conjunction of two truth values. -/
def and : Opcode := 65

/-- Chooses the second input if the first is true, else the third. -/
def select : Opcode := 69

end Opcode

/-- A table of the opcodes of builtin operations. -/
abbrev Builtins := Dictionary Opcode

namespace Builtins

/-- The names of the standard operations, in the order of their opcodes. -/
def standardNames : List String := [
    "ls", "lt", "rt", "V2_Splitter", "Float_Invert", "+", "a_button", "b_button", "lb", "rb",
    "rs", "x_button", "y_button", "Bool_To_Float", "*", "Not", "V2_Builder", "V+", "V3_Builder",
    "V3.cross", "V/", "V3.dot", "V3.magnitude", "V*", "V3.normalize", "V3.project",
    "V3.project_on_plane", "V3_Splitter", "V-", "V3.up", "V3.camera_pivot_horizontal",
    "V3.camera_pivot_vertical", "V3.camera_tilt_horizontal", "V3.camera_tilt_vertical",
    "V3.angle", "Math.sign", "a_key", "ctrl_key", "d_key", "e_key", "q_key", "shift_key", "s_key",
    "space_key", "w_key", "/", "If", "Math.delta_time", "<", "<=", ">", ">=", "Math.sin",
    "Math.cos", "Math.tan", "Math.clamp", "Math.clamp_01", "Math.float_lerp", "%", "**", "-",
    "Math.abs", "wasd", "mouse_1", "mouse_2", "&&", "||", "XOR", "==", "Ternary_Operator",
    "SS.togglenode", "SS.trigger", "Math.sqrt", "Math.acos", "Math.asin", "Math.atan", "b_key",
    "c_key", "f_key", "g_key", "h_key", "i_key", "j_key", "k_key", "l_key", "m_key", "n_key",
    "o_key", "p_key", "r_key", "t_key", "u_key", "v_key", "x_key", "y_key", "z_key", "num_0_key",
    "num_1_key", "num_2_key", "num_3_key", "num_4_key", "num_5_key", "num_6_key", "num_7_key",
    "num_8_key", "num_9_key"]

/-- The standard table. -/
def standard : Builtins where
  entries := standardNames.zipIdx.map fun p => (p.1, (p.2 : Int))
  distinct := by decide +kernel

/-- The opcode of a binary operator, or of its variant for vectors. -/
def operator? (b : Builtins) (symbol : String) (vector : Bool) : Option Opcode :=
  b.get? (if vector then "V" ++ symbol else symbol)

/-- The opcode of a function of a class. -/
def member? (b : Builtins) (className member : String) : Option Opcode :=
  b.get? (className ++ "." ++ Text.lower member)

/-- The opcode of a constant. -/
def constant? (b : Builtins) (name : String) : Option Opcode :=
  b.get? (Text.lower name)

/-- The name under which an entry is listed: behind the first dot it is in lower case. -/
def normalize (name : String) : String :=
  let cs := name.toList
  match cs.dropWhile (· != '.') with
  | [] => name
  | _ :: member =>
    String.ofList (cs.takeWhile (· != '.')) ++ "." ++ Text.lower (String.ofList member)

/-- Adds an entry or replaces one. -/
def add (b : Builtins) (name : String) (opcode : Opcode) : Builtins :=
  b.insert (normalize name) opcode

/-- Adds the entries of a JSON object, of which the last one for a name counts, and yields their
number too. -/
def extend (b : Builtins) (text : String) : Except Json.ReadError (Builtins × Nat) := do
  let entries := Dictionary.ofList (← Json.parseEntries text)
  return (entries.entries.foldl (fun b e => b.add e.1 e.2) b, entries.size)

/-- The type of the result of a function, by its name alone. A function that is not known is taken
to yield a vector. -/
def resultType (member : String) : ValueType :=
  let name := Text.lower member
  if name ∈ ["dot", "magnitude", "angle", "sign", "delta_time", "sin", "cos", "tan", "clamp",
      "clamp_01", "float_lerp", "abs", "sqrt", "acos", "asin", "atan"] then .float
  else if name ∈ ["togglenode", "trigger"] then .bool
  else .vector3

end Builtins

end ScriptGraph
