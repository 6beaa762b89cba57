/-!
# Files

What the command line needs to know of files: the text at a path, or why there is none. `Directory`
is a directory as a value, in which paths are resolved step by step. A path may lead out of it: the
folders around it are there, but nothing else in them is known.
-/

namespace ScriptGraph

/-- Why a path yields no text. -/
inductive FileError : Type where
  /-- nothing is there -/
  | notFound
  /-- a directory is there -/
  | isDirectory
  /-- the path leads through a file as if it were a directory -/
  | notDirectory
  /-- a file is there that is not UTF-8 -/
  | notText
  /-- any other cause, in the words of the system -/
  | other (text : String)
  deriving DecidableEq, Repr

/-- The system's words for an error. -/
def FileError.message : FileError → String
  | .notFound => "No such file or directory (os error 2)"
  | .isDirectory => "Is a directory (os error 21)"
  | .notDirectory => "Not a directory (os error 20)"
  | .notText => "stream did not contain valid UTF-8"
  | .other text => text

/-- The text at each path. -/
abbrev Files := String → Except FileError String

/-- What stands in a directory under a name. -/
inductive FileEntry : Type where
  /-- another directory -/
  | folder
  /-- a file with its bytes -/
  | file (content : ByteArray)

/-- A directory: the paths of all that it holds, each as a list of names, with what stands there. -/
structure Directory where
  /-- the entries -/
  entries : List (List String × FileEntry)

namespace Directory

/-- The names along a path. -/
def pathNames (path : String) : List String :=
  path.splitOn "/"

/-- The entry at the end of a list of names, if there is one. The directory itself and every part of
the path of an entry are folders. -/
def entry? (d : Directory) (names : List String) : Option FileEntry :=
  match d.entries.find? fun e => e.1 == names with
  | some e => some e.2
  | none => if names.isEmpty || d.entries.any fun e => names.isPrefixOf e.1 then some .folder
    else none

/-- A folder that a path has led to. -/
inductive Location : Type where
  /-- the folder at the end of a list of names, counted from the directory -/
  | inside (names : List String)
  /-- a folder that is not in the directory, such as those around it and the root of all paths -/
  | outside
  deriving DecidableEq, Repr

/-- The folder that holds a folder. The root holds itself, so outside there is always a way up. -/
def Location.parent : Location → Location
  | .inside [] => .outside
  | .inside (name :: names) => .inside (name :: names).dropLast
  | .outside => .outside

/-- The folder under a name in a folder. -/
def Location.child (location : Location) (name : String) : Location :=
  match location with
  | .inside names => .inside (names ++ [name])
  | .outside => .outside

/-- What stands in a folder under a name. Outside of the directory no name is known. -/
def lookup? (d : Directory) (location : Location) (name : String) : Option FileEntry :=
  match location with
  | .inside names => d.entry? (names ++ [name])
  | .outside => none

/-- Follows names from a folder to an entry. A dot and an empty name stay where they are, two dots go
up. -/
def walk (d : Directory) (location : Location) : List String → Except FileError FileEntry
  | [] => .ok .folder
  | name :: rest =>
    if name = "" ∨ name = "." then d.walk location rest
    else if name = ".." then d.walk location.parent rest
    else
      match d.lookup? location name with
      | none => .error .notFound
      | some .folder => d.walk (location.child name) rest
      | some (.file content) =>
        if rest.isEmpty then .ok (.file content) else .error .notDirectory

/-- The folder at which a path starts: the root behind a leading slash, else the directory. -/
def start (path : String) : Location :=
  if path.startsWith "/" then .outside else .inside []

/-- The text at a path. The empty path leads nowhere. -/
def read (d : Directory) : Files := fun path =>
  if path = "" then .error .notFound
  else
    match d.walk (start path) (pathNames path) with
    | .error e => .error e
    | .ok .folder => .error .isDirectory
    | .ok (.file content) =>
      match String.fromUTF8? content with
      | some text => .ok text
      | none => .error .notText

end Directory

end ScriptGraph
