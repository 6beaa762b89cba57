import ScriptGraph.CommandLine.Basic

/-!
# The program

The outer layer: it reads every file that an argument may name, runs the command line and prints.
-/

open ScriptGraph

/-- The text at a path of the file system. -/
def ScriptGraph.readPath (path : String) : IO (Except FileError String) := do
  try
    let content ← IO.FS.readBinFile path
    match String.fromUTF8? content with
    | some text => return .ok text
    | none => return .error .notText
  catch e =>
    match e with
    | .noFileOrDirectory _ _ _ => return .error .notFound
    | .inappropriateType _ _ _ => return .error .isDirectory
    | e => return .error (.other (toString e))

/-- Runs the program on its arguments. -/
def main (args : List String) : IO UInt32 := do
  let contents ← args.mapM fun path => return (path, ← readPath path)
  let files : Files := fun path => (contents.lookup path).getD (.error .notFound)
  let outcome := CommandLine.run files args
  IO.print outcome.stdout
  IO.eprint outcome.stderr
  return outcome.code.toUInt32
