import ScriptGraph.CommandLine.Files
import ScriptGraph.Compilation

/-!
# The command line

The command line is a function of its arguments and of the files that they name. Arguments are taken
from left to right, and the first one that is wrong ends the run; so does a request for help or for
the version. A table of builtins is read at once. The input is an inline source or a file; a file is
refused if an input has been given, while an inline source takes the place of an earlier input.

Two things are left out: the log that a variable of the environment can ask for, which goes to standard
error too, and arguments that are not Unicode.
-/

namespace ScriptGraph.CommandLine

/-- Where the source comes from. -/
inductive Input : Type where
  /-- from a file -/
  | file (path : String)
  /-- from the command line itself -/
  | inline (source : String)
  deriving DecidableEq, Repr

/-- What the arguments ask for. -/
structure Request where
  /-- the input, once it has been given -/
  input : Option Input := none
  /-- is a listing wanted, not a document? -/
  listing : Bool := false
  /-- the options of the compilation -/
  options : Options := {}

/-- What a list of arguments amounts to. -/
inductive Command : Type where
  /-- to show the help text -/
  | help
  /-- to show the version -/
  | version
  /-- to compile an input -/
  | compile (input : Input) (listing : Bool) (options : Options)

/-- Why arguments are refused. -/
inductive UsageError : Type where
  | missingSource
  | missingBuiltins
  | missingFirstRef
  /-- the text is no whole number of 32 bits -/
  | invalidFirstRef (text : String)
  | unknownOption (text : String)
  | tooManyInputs
  | noInput
  /-- the table of builtins could not be read -/
  | builtins (error : CompileError)
  deriving DecidableEq, Repr

/-- The message of an error. -/
def UsageError.message : UsageError → String
  | .missingSource => "Missing source after -e"
  | .missingBuiltins => "Missing file after --builtins"
  | .missingFirstRef => "Missing number after --first-id"
  | .invalidFirstRef text => "Invalid --first-id value: " ++ text
  | .unknownOption text => "Unknown option: " ++ text
  | .tooManyInputs => "Too many arguments."
  | .noInput => "No input given."
  | .builtins e => e.message

/-- Reads a whole number of 32 bits: an optional sign and digits. -/
def int32? (text : String) : Option Int :=
  let (negative, ds) := Decimal.splitSign text.toList
  let magnitude : Int := Decimal.ofDigitChars ds
  let n := if negative then -magnitude else magnitude
  if !ds.isEmpty && ds.all Char.isDigit && -2147483648 ≤ n && n ≤ 2147483647 then some n else none

/-- The standard table with the entries of a file. -/
def loadBuiltins (files : Files) (path : String) : Except CompileError Builtins := do
  let text ← (files path).mapError fun e => .io (path ++ ": " ++ e.message)
  let (table, _) ← (Builtins.standard.extend text).mapError (.builtinsFile path)
  return table

/-- Takes arguments from left to right, on top of what earlier ones asked for. -/
def interpret (files : Files) (r : Request) : List String → Except UsageError Command
  | [] =>
    match r.input with
    | some input => .ok (.compile input r.listing r.options)
    | none => .error .noInput
  | arg :: rest =>
    if arg = "--help" ∨ arg = "-h" then .ok .help
    else if arg = "--version" ∨ arg = "-v" then .ok .version
    else if arg = "-e" ∨ arg = "--eval" then
      match rest with
      | [] => .error .missingSource
      | source :: rest => interpret files { r with input := some (.inline source) } rest
    else if arg = "--dump" then interpret files { r with listing := true } rest
    else if arg = "--builtins" then
      match rest with
      | [] => .error .missingBuiltins
      | path :: rest =>
        match loadBuiltins files path with
        | .error e => .error (.builtins e)
        | .ok table =>
          interpret files { r with options := { r.options with builtins := table } } rest
    else if arg = "--first-id" then
      match rest with
      | [] => .error .missingFirstRef
      | text :: rest =>
        match int32? text with
        | none => .error (.invalidFirstRef text)
        | some n => interpret files { r with options := { r.options with first := n } } rest
    else if arg.startsWith "-" then .error (.unknownOption arg)
    else if r.input.isSome then .error .tooManyInputs
    else interpret files { r with input := some (.file arg) } rest

/-! ## Output -/

/-- The result of a run. -/
structure Outcome where
  /-- zero if all went well, one if there is an error to tell, and 101 if the program stopped by
  itself -/
  code : Nat
  /-- the text on standard output -/
  stdout : String
  /-- the text on standard error -/
  stderr : String
  deriving DecidableEq, Repr

/-- The outcome of a run that went well. -/
def Outcome.success (text : String) : Outcome :=
  ⟨0, text, ""⟩

/-- The outcome of a run that failed. -/
def Outcome.failure (text : String) : Outcome :=
  ⟨1, "", text⟩

/-- The outcome of a run that stopped when it ran out of ids. Of the message only the cause is kept,
without the place in the program that stands around it. -/
def Outcome.stopped : Outcome :=
  ⟨101, "", "attempt to add with overflow\n"⟩

/-- The help text, line by line. -/
def helpLines : List String := [
    "",
    "SSScript - compiles scripts into a visual-scripting node graph",
    "",
    "USAGE:",
    "    sscript <file>                 Compile a file, print editor JSON",
    "    sscript -e \"<source>\"          Compile inline source",
    "    sscript --dump <file>          Print a readable node/edge listing",
    "    sscript --help, -h             Show this help",
    "    sscript --version, -v          Show version",
    "",
    "OPTIONS:",
    "    --builtins <file.json>         Extra builtin entries \x7b\"name\": opcode\x7d",
    "    --first-id <n>                 First reference id (default 1)",
    "",
    "ENVIRONMENT:",
    "    RUST_LOG=debug                 Log pipeline stages to stderr",
    "",
    "EXAMPLES:",
    "    sscript -e \"float x; def Main(bool c) \x7b if (c) \x7b x = 5; \x7d \x7d\"",
    "    sscript --first-id 120 program.ss",
    ""]

/-- The help text; every line ends with a line feed. -/
def helpText : String :=
  String.join (helpLines.map (· ++ "\n"))

/-- The version line. -/
def versionText : String :=
  "SSScript 0.1.0\n"

/-- The source text of an input, or the message that there is none. -/
def Input.read (files : Files) : Input → Except String String
  | .inline source => .ok source
  | .file path =>
    (files path).mapError fun e =>
      "Error reading file '" ++ path ++ "': " ++ e.message ++ "\n"

/-- What a compiled graph is shown as: its listing, or the editor's document on lines of its own. -/
def output (listing : Bool) (c : Compiled) : String :=
  if listing then c.graph.listing else c.graph.editorText ++ "\n"

/-- Runs a command. -/
def Command.run (overflow : Overflow) (files : Files) : Command → Outcome
  | .help => .success helpText
  | .version => .success versionText
  | .compile input listing options =>
    match input.read files with
    | .error message => .failure message
    | .ok source =>
      match options.build overflow source with
      | none => .stopped
      | some (.error e) => .failure ("Error: " ++ e.message ++ "\n")
      | some (.ok c) => .success (output listing c)

/-- Runs the program, in a build without checks of its arithmetic if nothing else is said. -/
def run (files : Files) (args : List String) (overflow : Overflow := .wraps) : Outcome :=
  match interpret files {} args with
  | .error e => .failure (e.message ++ "\nUse --help for usage information.\n")
  | .ok command => command.run overflow files

end ScriptGraph.CommandLine
