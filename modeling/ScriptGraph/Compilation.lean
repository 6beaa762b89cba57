import ScriptGraph.Graph.Editor
import ScriptGraph.Graph.Repair
import ScriptGraph.Lowering.Overflow
import ScriptGraph.Parsing.Program

/-!
# Compilation

A compilation reads a program from its source, lowers it to a graph and repairs the graph. It has
two options: the table of builtins, and the first id to be given, which lets a graph continue the
numbering of a larger document. A failure of any stage is a failure of the whole; no partial graph
comes out.

`compile` yields the result, `compileEvents` the reports on the way to it. Both count ids up without
an end; `build` is `compile` in a build whose ids have 32 bits, and differs from it only where
these run out.
-/

namespace ScriptGraph

/-- Why a compilation failed. -/
inductive CompileError : Type where
  /-- the source is no program -/
  | source (error : SourceError)
  /-- the program has no graph -/
  | lowering (error : LoweringError)
  /-- ids would start at zero or below, where the graph and the endpoint have theirs -/
  | firstRef (first : Ref)
  /-- the file at a path is no table of builtins -/
  | builtinsFile (path : String) (error : Json.ReadError)
  /-- a file could not be read -/
  | io (text : String)
  /-- a document could not be read -/
  | document (error : Json.ReadError)
  deriving DecidableEq, Repr

namespace CompileError

/-- The message of an error. -/
def message : CompileError → String
  | .source e => "Parse error: " ++ e.message
  | .lowering e => "Generation error: " ++ e.message
  | .firstRef first =>
    "Configuration error: first reference id must be positive, got " ++ toString first
  | .builtinsFile path e => "Configuration error: " ++ path ++ ": " ++ e.message
  | .io text => "IO error: " ++ text
  | .document e => "Serialization error: " ++ e.message

/-- The position in the source that an error points to, if it does. -/
def position? : CompileError → Option Nat
  | .source e => e.span?.map (·.start)
  | .lowering e => e.span?.map (·.start)
  | _ => none

end CompileError

/-- What a compilation can be told. -/
structure Options where
  /-- the first id to be given -/
  first : Ref := 1
  /-- the table of builtins -/
  builtins : Builtins := Builtins.standard

/-- The result of a compilation. -/
structure Compiled where
  /-- the graph after its repair -/
  graph : Graph
  /-- what the repair did -/
  report : Report
  deriving DecidableEq, Repr

namespace Options

/-- Compiles a source text, with as many ids as it needs. -/
def compile (o : Options) (source : String) : Except CompileError Compiled := do
  if o.first < 1 then throw (.firstRef o.first)
  let program ← (Program.parse source).mapError .source
  let graph ← (program.lower o.builtins o.first).mapError .lowering
  return ⟨graph.repair, graph.report⟩

/-- Compiles a source text in a build, with ids of 32 bits. Where the build stops there is no
answer. -/
def build (o : Options) (overflow : Overflow) (source : String) :
    Option (Except CompileError Compiled) :=
  if o.first < 1 then some (.error (.firstRef o.first))
  else
    match Program.parse source with
    | .error e => some (.error (.source e))
    | .ok program =>
      (program.generate overflow o.builtins o.first).map fun
        | .error e => .error (.lowering e)
        | .ok graph => .ok ⟨graph.repair, graph.report⟩

/-- Compiles a source text to the editor's document. -/
def compileToEditor (o : Options) (source : String) : Except CompileError String := do
  return (← o.compile source).graph.editorText

end Options

/-! ## Reports -/

/-- The reports of reading a program. -/
def Program.parseEvents (source : String) : List Event :=
  match tokenize source with
  | .error _ => []
  | .ok tokens =>
    .scanned tokens.length ::
      match Program.parse source with
      | .error _ => []
      | .ok p => [.parsed p.items.length p.globals.length]

/-- The reports of a repair. -/
def Report.events (r : Report) : List Event :=
  r.chained.map .writeChained ++ r.orphans.map .neverRead ++
    [.repaired r.chained.length r.orphans.length]

/-- The reports of a compilation, also of one that fails. -/
def Options.compileEvents (o : Options) (source : String) : List Event :=
  if o.first < 1 then []
  else
    Program.parseEvents source ++
      match Program.parse source with
      | .error _ => []
      | .ok p =>
        p.loweringEvents o.builtins o.first ++
          match p.lower o.builtins o.first with
          | .error _ => []
          | .ok g =>
            let r := g.repair
            g.report.events ++
              [.compiled r.nodes.length r.literals.length r.connections.length r.counter]

end ScriptGraph
