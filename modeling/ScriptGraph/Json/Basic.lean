import ScriptGraph.Binary32.Decimal

/-!
# JSON documents

`Json` is a document as a tree. Numbers keep their text, because whole numbers and floating-point
numbers are both written into documents, each in its own form.

A document is written by `chars` in a `Layout`: on one line, or with one element or field to a line,
indented by two blanks for each level. Empty lists and objects stay on one line in both.
-/

namespace ScriptGraph

/-- A JSON document. -/
inductive Json : Type where
  | null
  | bool (value : Bool)
  /-- a number, as written -/
  | number (text : String)
  | string (value : String)
  | array (elements : List Json)
  /-- the fields in order; names may repeat -/
  | object (fields : List (String × Json))
  deriving Repr, Inhabited

namespace Json

/-- A whole number. -/
def ofInt (n : Int) : Json :=
  .number (toString n)

/-- A count. -/
def ofNat (n : Nat) : Json :=
  .number (toString n)

/-- A floating-point number; one that is not finite becomes `null`. -/
def ofBinary32 (x : Binary32) : Json :=
  match x.jsonText? with
  | some text => .number text
  | none => .null

/-! ## Strings -/

/-- The digit of a number below sixteen, in lower case. -/
def hexDigit (n : Nat) : Char :=
  Nat.digitChar n

/-- A character inside a string: quotes, backslashes and control characters are escaped, all else
stands for itself. -/
def escapeChar (c : Char) : List Char :=
  if c = '"' then ['\\', '"']
  else if c = '\\' then ['\\', '\\']
  else if c.toNat = 0x08 then ['\\', 'b']
  else if c.toNat = 0x09 then ['\\', 't']
  else if c.toNat = 0x0A then ['\\', 'n']
  else if c.toNat = 0x0C then ['\\', 'f']
  else if c.toNat = 0x0D then ['\\', 'r']
  else if c.toNat < 0x20 then
    ['\\', 'u', '0', '0', hexDigit (c.toNat / 16), hexDigit (c.toNat % 16)]
  else [c]

/-- A string in quotes. -/
def quote (s : String) : List Char :=
  '"' :: s.toList.flatMap escapeChar ++ ['"']

/-! ## Documents -/

/-- How the parts of a document are set apart. -/
structure Layout where
  /-- what stands before an element or field at a level, and before the closing bracket -/
  newline : Nat → List Char
  /-- what stands between a field's name and its value -/
  colon : List Char

/-- Everything on one line, without blanks. -/
def Layout.compact : Layout where
  newline _ := []
  colon := [':']

/-- One element or field to a line, indented by two blanks for each level. -/
def Layout.pretty : Layout where
  newline level := '\n' :: List.replicate (2 * level) ' '
  colon := [':', ' ']

mutual

/-- The characters of a document that stands at a level. -/
def chars (layout : Layout) (level : Nat) : Json → List Char
  | .null => "null".toList
  | .bool true => "true".toList
  | .bool false => "false".toList
  | .number text => text.toList
  | .string s => quote s
  | .array [] => ['[', ']']
  | .array (v :: vs) =>
    '[' :: layout.newline (level + 1) ++ chars layout (level + 1) v ++
      elementChars layout (level + 1) vs ++ layout.newline level ++ [']']
  | .object [] => ['\x7b', '\x7d']
  | .object ((name, v) :: fields) =>
    '\x7b' :: layout.newline (level + 1) ++ quote name ++ layout.colon ++
      chars layout (level + 1) v ++
      fieldChars layout (level + 1) fields ++ layout.newline level ++ ['\x7d']

/-- The characters of the elements behind the first one of a list. -/
def elementChars (layout : Layout) (level : Nat) : List Json → List Char
  | [] => []
  | v :: vs => ',' :: layout.newline level ++ chars layout level v ++ elementChars layout level vs

/-- The characters of the fields behind the first one of an object. -/
def fieldChars (layout : Layout) (level : Nat) : List (String × Json) → List Char
  | [] => []
  | (name, v) :: fields =>
    ',' :: layout.newline level ++ quote name ++ layout.colon ++ chars layout level v ++
      fieldChars layout level fields

end

/-- A document on one line. -/
def compact (j : Json) : String :=
  String.ofList (j.chars .compact 0)

/-- A document with one element or field to a line. -/
def pretty (j : Json) : String :=
  String.ofList (j.chars .pretty 0)

end Json

end ScriptGraph
