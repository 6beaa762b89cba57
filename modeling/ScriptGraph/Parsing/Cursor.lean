import ScriptGraph.SourceError
import ScriptGraph.Tree.Basic

/-!
# Reading tokens one by one

A cursor stands before the tokens still to be read. A `Parser` reads from it and either yields a
result or an error; in both cases the cursor stays where the reading stopped, so that a later
attempt goes on from there. The end of the source is never passed: reading it does not move the
cursor.

Parsers look one token ahead. `check` and `eat?` compare kinds only; `eatExact` also compares the
depth of a bracket, which finds the partner of an opening bracket without a stack.
-/

namespace ScriptGraph

/-- A place in a list of tokens. -/
structure Cursor where
  /-- the tokens still to be read, up to the end mark -/
  rest : List Lexeme
  /-- the place of the end mark -/
  stop : Span
  /-- the place of the token read last -/
  last : Span
  deriving DecidableEq, Repr

/-- The cursor before some tokens. They end at the first end mark; without one, they end behind the
last token. -/
def Cursor.ofTokens (tokens : List Lexeme) : Cursor :=
  let isEnd (l : Lexeme) : Bool := l.token == .eof
  let stop :=
    match tokens.find? isEnd, tokens.getLast? with
    | some l, _ => l.span
    | none, some l => ⟨l.span.stop, l.span.stop⟩
    | none, none => ⟨0, 0⟩
  { rest := tokens.takeWhile fun l => !isEnd l, stop := stop, last := stop }

/-- A reader of tokens that leaves the cursor where it stopped, also when it fails. -/
abbrev Parser := EStateM SourceError Cursor

namespace Parser

/-- The next token, without taking it. -/
def peek : Parser Lexeme := do
  let c ← get
  match c.rest with
  | [] => return ⟨.eof, c.stop⟩
  | l :: _ => return l

/-- Takes the next token; at the end the cursor stays. -/
def advance : Parser Lexeme := do
  let c ← get
  match c.rest with
  | [] => return ⟨.eof, c.stop⟩
  | l :: rest =>
    set { c with rest := rest, last := l.span }
    return l

/-- The number of tokens still to be read, which bounds every repetition. -/
def remaining : Parser Nat := do
  return (← get).rest.length

/-- The place of the token read last. -/
def lastSpan : Parser Span := do
  return (← get).last

/-- Does the source end here? -/
def atEnd : Parser Bool := do
  return (← peek).token == .eof

/-- Is the next token of the kind of `token`? -/
def check (token : Token) : Parser Bool := do
  return (← peek).token.sameKind token

/-- Takes the next token if it is of the kind of `token`. -/
def eat? (token : Token) : Parser (Option Lexeme) := do
  if ← check token then
    return some (← advance)
  else
    return none

/-- Takes the next token if it is of the kind of `token`, and says whether it was. -/
def eat (token : Token) : Parser Bool := do
  return (← eat? token).isSome

/-- Takes the next token if it equals `token`, and says whether it did. -/
def eatExact (token : Token) : Parser Bool := do
  if (← peek).token = token then
    discard advance
    return true
  else
    return false

/-- Fails at the next token, where `expected` was needed. -/
def failHere {α : Type} (expected : String) : Parser α := do
  let l ← peek
  if l.token = .eof then throw (.unexpectedEnd l.span expected)
  else throw (.unexpectedToken l.span expected l.token.text)

/-- Fails at a token already taken, where `expected` was needed. -/
def failAt {α : Type} (l : Lexeme) (expected : String) : Parser α :=
  if l.token = .eof then throw (.unexpectedEnd l.span expected)
  else throw (.unexpectedToken l.span expected l.token.text)

/-- Takes a token of the kind of `token`. -/
def expect (token : Token) (expected : String) : Parser Lexeme := do
  match ← eat? token with
  | some l => return l
  | none => failHere expected

/-- Takes an identifier. -/
def expectIdent (expected : String) : Parser Name := do
  match (← peek).token with
  | .ident text => return ⟨text, (← advance).span⟩
  | _ => failHere expected

/-- Takes the name of a value type. -/
def expectTypeName (expected : String) : Parser Name := do
  match (← peek).token with
  | .typeName text => return ⟨text, (← advance).span⟩
  | _ => failHere expected

/-- How the closing bracket of a pair is found: a reader that is given the bracket as it should
stand, takes the next token if it is that bracket, and says whether it was. The language uses
`eatExact`. -/
abbrev Closing := Token → Parser Bool

/-- Takes the closing parenthesis that belongs to `opening`. -/
def closeParen (closing : Closing) (opening : Lexeme) (expected : String) : Parser Unit := do
  if ← closing (.rparen (opening.token.depth?.getD 0)) then
    return ()
  else if ← atEnd then
    throw (.unmatchedDelimiter opening.span '(')
  else
    failHere expected

end Parser

end ScriptGraph
