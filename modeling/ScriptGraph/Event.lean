import ScriptGraph.Binary32.Decimal
import ScriptGraph.Graph.Basic

/-!
# Log messages

Every stage of a compilation reports what it did. An `Event` is one report; it has a level and a
wording. Events before a failure stay reported.
-/

namespace ScriptGraph

/-- How much a report matters. -/
inductive Level : Type where
  | info
  | debug
  | trace
  deriving DecidableEq, Repr

/-- A report of one step. -/
inductive Event : Type where
  /-- the text was split into tokens, its end among them -/
  | scanned (tokens : Nat)
  /-- the tokens form a program -/
  | parsed (items globals : Nat)
  /-- a global variable was given an id -/
  | globalDeclared (name : String) (ref : Ref)
  /-- a literal was made -/
  | literalMade (ref : Ref) (value : Binary32)
  /-- a node was made -/
  | nodeMade (ref : Ref) (opcode : Opcode)
  /-- a method was lowered; the last node to run is named -/
  | methodDone (name : String) (last : Ref)
  /-- the graph is complete -/
  | lowered (nodes literals connections : Nat)
  /-- a write was connected to the exit -/
  | writeChained (ref : Ref)
  /-- a node was moved aside -/
  | neverRead (ref : Ref)
  /-- the graph was repaired -/
  | repaired (chained orphans : Nat)
  /-- the compilation is complete -/
  | compiled (nodes literals connections : Nat) (next : Ref)
  deriving DecidableEq, Repr

namespace Event

/-- The level of a report. -/
def level : Event → Level
  | .scanned _ => .debug
  | .parsed _ _ => .debug
  | .globalDeclared _ _ => .trace
  | .literalMade _ _ => .trace
  | .nodeMade _ _ => .trace
  | .methodDone _ _ => .trace
  | .lowered _ _ _ => .debug
  | .writeChained _ => .debug
  | .neverRead _ => .debug
  | .repaired _ _ => .debug
  | .compiled _ _ _ _ => .info

/-- The counts of the parts of a graph. -/
def partsText (nodes literals connections : Nat) : String :=
  toString nodes ++ " nodes, " ++ toString literals ++ " values, " ++ toString connections ++
    " connections"

/-- The wording of a report. -/
def message : Event → String
  | .scanned tokens => "lexer produced " ++ toString tokens ++ " tokens"
  | .parsed items globals =>
    "parsed " ++ toString items ++ " top-level items (" ++ toString globals ++ " globals)"
  | .globalDeclared name ref => "global '" ++ name ++ "' -> #" ++ toString ref
  | .literalMade ref value => "value #" ++ toString ref ++ " = " ++ value.text
  | .nodeMade ref opcode => "node #" ++ toString ref ++ " opcode " ++ toString opcode
  | .methodDone name last =>
    "'" ++ name ++ "' done, execution chain ends at #" ++ toString last
  | .lowered nodes literals connections => "generated " ++ partsText nodes literals connections
  | .writeChained ref => "write #" ++ toString ref ++ " chained to exit"
  | .neverRead ref => "node #" ++ toString ref ++ " is never read"
  | .repaired chained orphans =>
    "finalize: " ++ toString chained ++ " writes chained, " ++ toString orphans ++ " orphans"
  | .compiled nodes literals connections next =>
    "compiled: " ++ partsText nodes literals connections ++ ", next id " ++ toString next

end Event

end ScriptGraph
