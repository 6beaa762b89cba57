import ScriptGraph.Json.Basic
import ScriptGraph.Json.Number

/-!
# Reading JSON

A document is read from left to right and the first fault ends the reading. Two readers share their
parts: `Json.parse` takes any document, nested up to a limit, and `Json.parseEntries` takes an object
whose values are whole numbers of 32 bits. The second refuses a value of another shape as soon as it
knows the shape: a list or an object at its opening bracket, anything else once it has been read.

A fault is a cause and a place. Causes fall into three classes: the text ends too early, the text is
no JSON, or it is JSON of the wrong shape.
-/

namespace ScriptGraph

namespace Json

/-- The class of a fault. -/
inductive Category : Type where
  /-- the text is no JSON -/
  | malformed
  /-- the text is JSON of the wrong shape -/
  | data
  /-- the text ends too early -/
  | eof
  deriving DecidableEq, Repr

/-- Why a text could not be read. -/
inductive Fault : Type where
  | endInValue
  | endInList
  | endInObject
  | endInString
  | expectedColon
  | expectedListEnd
  | expectedObjectEnd
  | expectedIdent
  | expectedValue
  | keyNotString
  | invalidEscape
  | invalidNumber
  | numberOutOfRange
  | controlCharacter
  | loneSurrogate
  | unfinishedPair
  | trailingComma
  | trailingCharacters
  | nestedTooDeeply
  /-- a value of another type than the one needed -/
  | wrongType (found needed : String)
  /-- a value of the right type out of its range -/
  | wrongValue (found needed : String)
  deriving DecidableEq, Repr

/-- The class of a fault. -/
def Fault.category : Fault → Category
  | .endInValue => .eof
  | .endInList => .eof
  | .endInObject => .eof
  | .endInString => .eof
  | .wrongType _ _ => .data
  | .wrongValue _ _ => .data
  | _ => .malformed

/-- The wording of a fault. -/
def Fault.text : Fault → String
  | .endInValue => "EOF while parsing a value"
  | .endInList => "EOF while parsing a list"
  | .endInObject => "EOF while parsing an object"
  | .endInString => "EOF while parsing a string"
  | .expectedColon => "expected `:`"
  | .expectedListEnd => "expected `,` or `]`"
  | .expectedObjectEnd => "expected `,` or `\x7d`"
  | .expectedIdent => "expected ident"
  | .expectedValue => "expected value"
  | .keyNotString => "key must be a string"
  | .invalidEscape => "invalid escape"
  | .invalidNumber => "invalid number"
  | .numberOutOfRange => "number out of range"
  | .controlCharacter => "control character (\\u0000-\\u001F) found while parsing a string"
  | .loneSurrogate => "lone leading surrogate in hex escape"
  | .unfinishedPair => "unexpected end of hex escape"
  | .trailingComma => "trailing comma"
  | .trailingCharacters => "trailing characters"
  | .nestedTooDeeply => "recursion limit exceeded"
  | .wrongType found needed => "invalid type: " ++ found ++ ", expected " ++ needed
  | .wrongValue found needed => "invalid value: " ++ found ++ ", expected " ++ needed

/-- A place in a text: a line, counted from one, and the number of its bytes before the place. -/
structure Position where
  /-- the line -/
  line : Nat
  /-- the bytes before the place in its line -/
  column : Nat
  deriving DecidableEq, Repr

/-- A fault at its place. -/
structure ReadError where
  /-- the cause -/
  fault : Fault
  /-- the place -/
  position : Position
  deriving DecidableEq, Repr

/-- The class of an error. -/
def ReadError.category (e : ReadError) : Category :=
  e.fault.category

/-- The message of an error. -/
def ReadError.message (e : ReadError) : String :=
  e.fault.text ++ " at line " ++ toString e.position.line ++ " column " ++
    toString e.position.column

/-- What remains of a text, and the place where it starts. -/
structure Input where
  /-- the characters still to be read -/
  rest : List Char
  /-- the place before them -/
  position : Position
  deriving DecidableEq, Repr

/-- The place behind a character. -/
def Position.after (p : Position) (c : Char) (bytes : Nat) : Position :=
  if c = '\n' then ⟨p.line + 1, 0⟩ else ⟨p.line, p.column + bytes⟩

/-- A reader of characters. -/
abbrev Reader := EStateM ReadError Input

namespace Reader

/-! ## Characters -/

/-- The next character, without taking it. -/
def peek? : Reader (Option Char) := do
  return (← get).rest.head?

/-- Takes the next character. -/
def next? : Reader (Option Char) := do
  let i ← get
  match i.rest with
  | [] => return none
  | c :: rest =>
    set ({ rest := rest, position := i.position.after c c.utf8Size } : Input)
    return some c

/-- Fails at the place reached. -/
def failHere {α : Type} (fault : Fault) : Reader α := do
  throw ⟨fault, (← get).position⟩

/-- Fails at the character ahead, whose first byte is counted. -/
def failAhead {α : Type} (fault : Fault) : Reader α := do
  let i ← get
  match i.rest with
  | [] => throw ⟨fault, i.position⟩
  | c :: _ => throw ⟨fault, i.position.after c 1⟩

/-- Takes the next characters as long as a test holds, and yields them. -/
def takeWhile (test : Char → Bool) : Reader (List Char) := do
  let i ← get
  let taken := i.rest.takeWhile test
  set ({ rest := i.rest.dropWhile test,
         position := taken.foldl (fun p c => p.after c c.utf8Size) i.position } : Input)
  return taken

/-- May a character stand between the parts of a document? -/
def isBlank (c : Char) : Bool :=
  c == ' ' || c == '\n' || c == '\t' || c == '\r'

/-- Skips blanks and yields the next character, without taking it. -/
def peekPart? : Reader (Option Char) := do
  discard (takeWhile isBlank)
  peek?

/-! ## Words and numbers -/

/-- Takes the characters of a word, each of which has to be there. -/
def word : List Char → Reader Unit
  | [] => return ()
  | c :: cs => do
    match ← next? with
    | none => failHere .endInValue
    | some d => if d = c then word cs else failHere .expectedIdent

/-- Takes the whole part of a number: a zero, or digits that do not start with one. -/
def wholePart : Reader (List Char) := do
  match ← next? with
  | none => failHere .endInValue
  | some c =>
    if c = '0' then
      match ← peek? with
      | some d => if d.isDigit then failAhead .invalidNumber else return [c]
      | none => return [c]
    else if c.isDigit then
      return c :: (← takeWhile Char.isDigit)
    else failHere .invalidNumber

/-- Takes the fraction of a number, if it has one: a point and at least one digit. -/
def fractionPart : Reader (List Char) := do
  if (← peek?) = some '.' then
    discard next?
    let digits ← takeWhile Char.isDigit
    if digits.isEmpty then
      match ← peek? with
      | some _ => failAhead .invalidNumber
      | none => failAhead .endInValue
    else return '.' :: digits
  else return []

/-- Takes the exponent of a number, if it has one: a mark, an optional sign and at least one
digit. -/
def exponentPart : Reader (List Char) := do
  let isMark (c : Char) : Bool := c == 'e' || c == 'E'
  let isSign (c : Char) : Bool := c == '+' || c == '-'
  if ((← peek?).any isMark) then
    discard next?
    let sign ← if ((← peek?).any isSign) then (·.toList) <$> next? else pure []
    match ← next? with
    | none => failHere .endInValue
    | some d =>
      if d.isDigit then return 'e' :: sign ++ d :: (← takeWhile Char.isDigit)
      else failHere .invalidNumber
  else return []

/-- Takes a number and yields its characters. -/
def number : Reader (List Char) := do
  let sign ← if (← peek?) = some '-' then (·.toList) <$> next? else pure []
  let whole ← wholePart
  let fraction ← fractionPart
  let exponent ← exponentPart
  let power := (Decimal.readExponent? exponent).getD 0
  if Number.isOutOfRange whole (fraction.drop 1) power then failHere .numberOutOfRange
  return sign ++ whole ++ fraction ++ exponent

/-! ## Strings -/

/-- The value of a hexadecimal digit. -/
def hexValue? (c : Char) : Option Nat :=
  if c.isDigit then some (c.toNat - '0'.toNat)
  else if 'a' ≤ c ∧ c ≤ 'f' then some (c.toNat - 'a'.toNat + 10)
  else if 'A' ≤ c ∧ c ≤ 'F' then some (c.toNat - 'A'.toNat + 10)
  else none

/-- The value of four hexadecimal digits. -/
def hexValue4? : List Char → Option Nat
  | [a, b, c, d] => do
    return ((← hexValue? a) * 16 + (← hexValue? b)) * 256 + (← hexValue? c) * 16 + (← hexValue? d)
  | _ => none

/-- Takes a number of characters. -/
def skip : Nat → Reader Unit
  | 0 => return ()
  | n + 1 => do
    discard next?
    skip n

/-- Takes four hexadecimal digits. A text with fewer than four bytes left has ended too early. -/
def hex4 : Reader Nat := do
  let rest := (← get).rest
  if (rest.take 4).foldl (fun size c => size + c.utf8Size) 0 < 4 then failHere .endInString
  else
    match hexValue4? (rest.take 4) with
    | some n =>
      skip 4
      return n
    | none => failHere .invalidEscape

/-- Takes a character that has to be there inside an escape of two parts. -/
def pairPart (c : Char) : Reader Unit := do
  match ← next? with
  | none => failHere .endInString
  | some d => if d = c then return () else failHere .unfinishedPair

/-- Takes the rest of an escape by code: four hexadecimal digits, or two such escapes for a character
beyond the first plane. -/
def codeEscape : Reader Char := do
  let n ← hex4
  if 0xDC00 ≤ n && n ≤ 0xDFFF then failHere .loneSurrogate
  else if 0xD800 ≤ n && n ≤ 0xDBFF then
    pairPart '\\'
    pairPart 'u'
    let m ← hex4
    if 0xDC00 ≤ m && m ≤ 0xDFFF then
      return Char.ofNat (0x10000 + (n - 0xD800) * 0x400 + (m - 0xDC00))
    else failHere .loneSurrogate
  else return Char.ofNat n

/-- Takes the rest of an escape behind its backslash. -/
def escape : Reader Char := do
  match ← next? with
  | none => failHere .endInString
  | some '"' => return '"'
  | some '\\' => return '\\'
  | some '/' => return '/'
  | some 'b' => return Char.ofNat 0x08
  | some 'f' => return Char.ofNat 0x0C
  | some 'n' => return '\n'
  | some 'r' => return '\r'
  | some 't' => return '\t'
  | some 'u' => codeEscape
  | some _ => failHere .invalidEscape

/-- Takes the rest of a string behind its opening quote. Every round takes a character, so the
number of characters that remain bounds them. -/
def stringRest : Nat → Reader (List Char)
  | 0 => failHere .endInString
  | n + 1 => do
    match ← next? with
    | none => failHere .endInString
    | some c =>
      if c = '"' then return []
      else if c = '\\' then
        let d ← escape
        return d :: (← stringRest n)
      else if c.toNat < 0x20 then failHere .controlCharacter
      else return c :: (← stringRest n)

/-- Takes a string with its quotes. -/
def string : Reader String := do
  discard next?
  return String.ofList (← stringRest (← get).rest.length)

/-! ## Lists and objects -/

/-- Takes the elements of a list and its closing bracket; `first` says that no element has been
read. -/
def elements {α : Type} (element : Reader α) (first : Bool) : Nat → Reader (List α)
  | 0 => failAhead .endInList
  | n + 1 => do
    match ← peekPart? with
    | none => failAhead .endInList
    | some c =>
      if c = ']' then
        discard next?
        return []
      else if first then
        let v ← element
        return v :: (← elements element false n)
      else if c = ',' then
        discard next?
        match ← peekPart? with
        | none => failAhead .endInValue
        | some d =>
          if d = ']' then failAhead .trailingComma
          else
            let v ← element
            return v :: (← elements element false n)
      else failAhead .expectedListEnd

/-- Takes a field: its name, a colon and its value. -/
def namedField {α : Type} (value : Reader α) : Reader (String × α) := do
  match ← peekPart? with
  | none => failAhead .endInValue
  | some c =>
    if c = '"' then
      let name ← string
      match ← peekPart? with
      | none => failAhead .endInObject
      | some d =>
        if d = ':' then
          discard next?
          return (name, ← value)
        else failAhead .expectedColon
    else if c = '\x7d' then failAhead .trailingComma
    else failAhead .keyNotString

/-- Takes the fields of an object and its closing bracket; `first` says that no field has been
read. -/
def fields {α : Type} (value : Reader α) (first : Bool) : Nat → Reader (List (String × α))
  | 0 => failAhead .endInObject
  | n + 1 => do
    match ← peekPart? with
    | none => failAhead .endInObject
    | some c =>
      if c = '\x7d' then
        discard next?
        return []
      else if first then
        let f ← namedField value
        return f :: (← fields value false n)
      else if c = ',' then
        discard next?
        let f ← namedField value
        return f :: (← fields value false n)
      else failAhead .expectedObjectEnd

/-! ## Documents -/

/-- Takes a document whose parts are read by `inner`; without it, parts nest too deeply. -/
def valueOf (inner : Option (Reader Json)) : Reader Json := do
  match ← peekPart? with
  | none => failAhead .endInValue
  | some c =>
    if c = 'n' then
      word "null".toList
      return .null
    else if c = 't' then
      word "true".toList
      return .bool true
    else if c = 'f' then
      word "false".toList
      return .bool false
    else if c = '-' || c.isDigit then
      return .number (String.ofList (← number))
    else if c = '"' then
      return .string (← string)
    else if c = '[' then
      match inner with
      | none => failAhead .nestedTooDeeply
      | some inner =>
        discard next?
        return .array (← elements inner true (← get).rest.length)
    else if c = '\x7b' then
      match inner with
      | none => failAhead .nestedTooDeeply
      | some inner =>
        discard next?
        return .object (← fields inner true (← get).rest.length)
    else failAhead .expectedValue

/-- Takes a document in which lists and objects nest up to a depth. -/
def value : Nat → Reader Json
  | 0 => valueOf none
  | depth + 1 => valueOf (some (value depth))

/-- Refuses the value ahead, which is none of those needed. -/
def refuse {α : Type} (needed : String) : Reader α := do
  match ← valueOf none with
  | .null => failHere (.wrongType "null" needed)
  | .bool true => failHere (.wrongType "boolean `true`" needed)
  | .bool false => failHere (.wrongType "boolean `false`" needed)
  | .string s => failHere (.wrongType ("string " ++ String.ofList (Json.quote s)) needed)
  | .number text =>
    match Number.whole? text.toList with
    | some _ => failHere (.wrongType ("integer `" ++ text ++ "`") needed)
    | none => failHere (.wrongType ("floating point `" ++ text ++ "`") needed)
  | _ => failHere .expectedValue

/-- Takes a whole number of 32 bits. -/
def int32 : Reader Int := do
  match ← peekPart? with
  | none => failAhead .endInValue
  | some c =>
    if c = '[' then failHere (.wrongType "sequence" "i32")
    else if c = '\x7b' then failHere (.wrongType "map" "i32")
    else if c = '-' || c.isDigit then
      let text ← number
      match Number.whole? text with
      | some n =>
        if -2147483648 ≤ n ∧ n ≤ 2147483647 then return n
        else failHere (.wrongValue ("integer `" ++ String.ofList text ++ "`") "i32")
      | none => failHere (.wrongType ("floating point `" ++ String.ofList text ++ "`") "i32")
    else refuse "i32"

/-- Takes an object whose values are whole numbers of 32 bits. -/
def entries : Reader (List (String × Int)) := do
  match ← peekPart? with
  | none => failAhead .endInValue
  | some c =>
    if c = '\x7b' then
      discard next?
      fields int32 true (← get).rest.length
    else if c = '[' then failHere (.wrongType "sequence" "a map")
    else refuse "a map"

/-- Takes a document and the blanks behind it, behind which nothing may follow. -/
def toEnd {α : Type} (document : Reader α) : Reader α := do
  let a ← document
  match ← peekPart? with
  | none => return a
  | some _ => failAhead .trailingCharacters

/-- Reads a whole text. -/
def read {α : Type} (document : Reader α) (text : String) : Except ReadError α :=
  match toEnd document ⟨text.toList, ⟨1, 0⟩⟩ with
  | .ok a _ => .ok a
  | .error e _ => .error e

end Reader

/-- Reads a document in which lists and objects nest at most 127 deep. -/
def parse (text : String) : Except ReadError Json :=
  Reader.read (Reader.value 127) text

/-- Reads an object whose values are whole numbers of 32 bits, as a list of its fields. -/
def parseEntries (text : String) : Except ReadError (List (String × Int)) :=
  Reader.read Reader.entries text

end Json

end ScriptGraph
