import ScriptGraph.Token.Basic

/-!
# What can be wrong with a source text

`SourceError` names the causes for which a text is not a program, from a character that starts no
token to a program without an entry method. `message` words them; every message with a place ends in
the offending text in quotes and its position.
-/

namespace ScriptGraph

/-- The end of every message that names a place. -/
def Span.positionText (span : Span) : String :=
  " at position " ++ toString span.start

/-- A text in single quotes. -/
def Text.quoted (text : String) : String :=
  "'" ++ text ++ "'"

/-- Why a text is not a program. -/
inductive SourceError : Type where
  /-- a character that starts no token -/
  | unexpectedChar (span : Span) (char : Char)
  /-- a token where another was needed -/
  | unexpectedToken (span : Span) (expected found : String)
  /-- the text ends where something was needed -/
  | unexpectedEnd (span : Span) (needed : String)
  /-- a number literal that is no number -/
  | invalidNumber (span : Span) (text : String)
  /-- an opening bracket without its partner -/
  | unmatchedDelimiter (span : Span) (delimiter : Char)
  /-- a public declaration with an initial value -/
  | publicInitializer (span : Span) (name : String)
  /-- a method that is not the entry method -/
  | invalidMethod (span : Span) (name : String)
  /-- a second entry method -/
  | duplicateMethod (span : Span) (name : String)
  /-- no entry method -/
  | missingEntry
  deriving DecidableEq, Repr, Inhabited

namespace SourceError

/-- The place of an error, if it has one. -/
def span? : SourceError → Option Span
  | .unexpectedChar span _ => some span
  | .unexpectedToken span _ _ => some span
  | .unexpectedEnd span _ => some span
  | .invalidNumber span _ => some span
  | .unmatchedDelimiter span _ => some span
  | .publicInitializer span _ => some span
  | .invalidMethod span _ => some span
  | .duplicateMethod span _ => some span
  | .missingEntry => none

/-- Was the text refused before its tokens were known? -/
def isLexical : SourceError → Bool
  | .unexpectedChar _ _ => true
  | _ => false

/-- The message of an error. -/
def message : SourceError → String
  | .unexpectedChar span c => "Unknown character " ++ Text.quoted (String.singleton c) ++ span.positionText
  | .unexpectedToken span expected found =>
    "Expected " ++ expected ++ ", found " ++ Text.quoted found ++ span.positionText
  | .unexpectedEnd span needed => "Unexpected end of input, expected " ++ needed ++ span.positionText
  | .invalidNumber span text => "Invalid number " ++ Text.quoted text ++ span.positionText
  | .unmatchedDelimiter span c => "Unclosed " ++ Text.quoted (String.singleton c) ++ span.positionText
  | .publicInitializer span name =>
    "Public variable cannot be initialized " ++ Text.quoted name ++ span.positionText
  | .invalidMethod span name =>
    "Only method 'Main' is allowed, found " ++ Text.quoted name ++ span.positionText
  | .duplicateMethod span name => "Duplicate method " ++ Text.quoted name ++ span.positionText
  | .missingEntry => "Program has no 'Main' method"

end SourceError

end ScriptGraph
