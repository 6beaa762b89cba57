import ScriptGraph.Graph.Basic

/-!
# Graphs as text

Three texts show a graph:

* the editor's document, JSON with one field to a line, in the editor's names and layout: the
  operation of a node as a list of one, the kind of a connection as a word, the value of a literal as
  text;
* the record, JSON on one line with a field for every part of the graph;
* the listing, for people.
-/

namespace ScriptGraph

namespace Graph

/-! ## The editor's document -/

/-- The name that the editor gives to a new graph. -/
def defaultName : String := "Untitled NodeGraph"

/-- A place, as an object. -/
def placeJson (p : Place) : Json :=
  .object [("x", .ofBinary32 p.x), ("y", .ofBinary32 p.y)]

/-- A pin, in the editor's names. -/
def editorPin (p : Pin) : Json :=
  .object [("portName", .string p.name), ("dataType", .string p.dataType)]

/-- A node, in the editor's names. -/
def editorNode (n : Node) : Json :=
  .object [
    ("ID", .array [.ofInt n.opcode]),
    ("refID", .ofInt n.ref),
    ("linkedPieceRefID", .ofInt n.linked),
    ("GraphPosition", placeJson n.place)]

/-- A connection, in the editor's names. -/
def editorConnection (c : Connection) : Json :=
  .object [
    ("isExecutionPort", .string (if c.isExecution then "True" else "False")),
    ("fromNodeRefID", .ofInt c.source),
    ("fromNodePortIndex", .ofNat c.sourcePin),
    ("toNodeRefID", .ofInt c.target),
    ("toNodePortIndex", .ofNat c.targetPin)]

/-- A variable, in the editor's names. -/
def editorVariable (v : Variable) : Json :=
  .object [
    ("VariableName", .string v.name),
    ("RefID", .ofInt v.ref),
    ("Type", .string v.type),
    ("Value", .string v.default)]

/-- A literal, in the editor's names. -/
def editorLiteral (l : Literal) : Json :=
  .object [
    ("refID", .ofInt l.ref),
    ("ValueName", .string l.name),
    ("GraphPosition", placeJson l.place),
    ("Type", .string "float"),
    ("Value", .string l.value.text)]

/-- A graph, in the editor's names. -/
def editorJson (g : Graph) : Json :=
  .object [
    ("graphName", .string defaultName),
    ("isMethod", .bool false),
    ("refID", .ofInt 0),
    ("refIDCounter", .ofInt g.counter),
    ("ExecutionEnterPosition", placeJson Place.enter),
    ("ExecutionExitPosition", placeJson Place.exit),
    ("InputPorts", .array (g.inputs.map editorPin)),
    ("OutputPorts", .array (g.outputs.map editorPin)),
    ("ExecutionExits", .array []),
    ("nodes", .array (g.nodes.map editorNode)),
    ("nodeConnections", .array (g.connections.map editorConnection)),
    ("nestedNodeGraphs", .array []),
    ("Variables", .array (g.globals.map editorVariable)),
    ("Values", .array (g.literals.map editorLiteral))]

/-- The text of the editor's document. -/
def editorText (g : Graph) : String :=
  g.editorJson.pretty

/-- The text of the editor's document as a field, to be pasted into a larger one. -/
def editorField (g : Graph) : String :=
  "\"NodeGraph\": " ++ g.editorText

/-! ## The record -/

/-- A pin, in the names of the record. -/
def recordPin (p : Pin) : Json :=
  .object [("name", .string p.name), ("data_type", .string p.dataType)]

/-- A variable, in the names of the record. -/
def recordVariable (v : Variable) : Json :=
  .object [
    ("name", .string v.name),
    ("ref_id", .ofInt v.ref),
    ("type_name", .string v.type),
    ("default_value", .string v.default)]

/-- A node, in the names of the record. -/
def recordNode (n : Node) : Json :=
  .object [
    ("opcode", .ofInt n.opcode),
    ("ref_id", .ofInt n.ref),
    ("position", placeJson n.place),
    ("linked_variable", .ofInt n.linked)]

/-- A literal, in the names of the record. -/
def recordLiteral (l : Literal) : Json :=
  .object [
    ("ref_id", .ofInt l.ref),
    ("name", .string l.name),
    ("position", placeJson l.place),
    ("value", .ofBinary32 l.value)]

/-- A connection, in the names of the record. -/
def recordConnection (c : Connection) : Json :=
  .object [
    ("is_execution", .bool c.isExecution),
    ("from_ref", .ofInt c.source),
    ("from_port", .ofNat c.sourcePin),
    ("to_ref", .ofInt c.target),
    ("to_port", .ofNat c.targetPin)]

/-- A graph, in the names of the record. -/
def recordJson (g : Graph) : Json :=
  .object [
    ("input_ports", .array (g.inputs.map recordPin)),
    ("output_ports", .array (g.outputs.map recordPin)),
    ("variables", .array (g.globals.map recordVariable)),
    ("nodes", .array (g.nodes.map recordNode)),
    ("values", .array (g.literals.map recordLiteral)),
    ("connections", .array (g.connections.map recordConnection)),
    ("ref_id_counter", .ofInt g.counter)]

/-- The text of the record. -/
def recordText (g : Graph) : String :=
  g.recordJson.compact

/-! ## The listing -/

/-- An id, as the listing writes it. -/
def refText (ref : Ref) : String :=
  "#" ++ toString ref

/-- A place, as the listing writes it. -/
def placeText (p : Place) : String :=
  "(" ++ p.x.text ++ ", " ++ p.y.text ++ ")"

/-- The names of pins between square brackets. -/
def pinsText (pins : List Pin) : String :=
  "[" ++ String.intercalate ", " (pins.map (·.name)) ++ "]"

/-- The line of a variable. -/
def variableLine (v : Variable) : String :=
  "  " ++ refText v.ref ++ " " ++ v.name ++ ": " ++ v.type ++ " = " ++ v.default

/-- The line of a literal. -/
def literalLine (l : Literal) : String :=
  "  " ++ refText l.ref ++ " " ++ l.name ++ " = " ++ l.value.text ++ " @ " ++ placeText l.place

/-- The line of a node. -/
def nodeLine (n : Node) : String :=
  "  " ++ refText n.ref ++ " op " ++ toString n.opcode ++
    (if 0 ≤ n.linked then " var " ++ refText n.linked else "") ++ " @ " ++ placeText n.place

/-- The line of a connection. -/
def connectionLine (c : Connection) : String :=
  if c.isExecution then "  exec " ++ refText c.source ++ " -> " ++ refText c.target
  else
    "  data " ++ refText c.source ++ ":" ++ toString c.sourcePin ++ " -> " ++
      refText c.target ++ ":" ++ toString c.targetPin

/-- The lines of the listing. -/
def listingLines (g : Graph) : List String :=
  ["inputs:  " ++ pinsText g.inputs, "outputs: " ++ pinsText g.outputs] ++
    "variables:" :: g.globals.map variableLine ++
    "values:" :: g.literals.map literalLine ++
    "nodes:" :: g.nodes.map nodeLine ++
    "connections:" :: g.connections.map connectionLine ++
    ["next id: " ++ toString g.counter]

/-- The listing; every line ends with a line feed. -/
def listing (g : Graph) : String :=
  String.join (g.listingLines.map (· ++ "\n"))

end Graph

end ScriptGraph
