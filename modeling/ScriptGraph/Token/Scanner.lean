import ScriptGraph.SourceError
import ScriptGraph.Text.WhiteSpace

/-!
# Scanning

A scanner stands between two characters of the source. Each step skips white space and takes the
longest token that starts there:

* a number runs on over digits, dots and the letter `e`, whether or not that makes a number;
* a word runs on over letters, digits and underscores, and is a qualifier if a dot follows at once;
* of two operators that fit, the longer one wins;
* a bracket takes its depth from the number of its kind still open, which a stray closing bracket
  can make negative.

A character that starts no token is an error of its own; the next step goes on behind it. Scanning
the whole text stops at the first error.

Depths are whole numbers without bounds here, and numbers of 32 bits where the program runs. Only a
text with more than `2 ^ 31` brackets of one kind could show the difference.
-/

namespace ScriptGraph

/-- A scanner at a point of the source. -/
structure Scanner where
  /-- the characters still to be scanned -/
  rest : List Char
  /-- the number of bytes before them -/
  offset : Nat
  /-- opening braces less closing braces so far -/
  braces : Int
  /-- opening parentheses less closing parentheses so far -/
  parens : Int
  deriving DecidableEq, Repr

namespace Scanner

/-- The number of bytes of some characters in UTF-8. -/
def byteCount (cs : List Char) : Nat :=
  cs.foldl (fun size c => size + c.utf8Size) 0

/-- May a character stand in a number literal behind its first digit? -/
def isNumberChar (c : Char) : Bool :=
  c.isDigit || c == '.' || c == 'e'

/-- May a character start a word? -/
def isWordStart (c : Char) : Bool :=
  c.isAlpha || c == '_'

/-- May a character stand in a word behind its first one? -/
def isWordChar (c : Char) : Bool :=
  c.isAlphanum || c == '_'

/-- The scanner at the start of a text. -/
def ofChars (cs : List Char) : Scanner :=
  ⟨cs, 0, 0, 0⟩

/-- The scanner behind the next `count` characters. -/
def drop (s : Scanner) (count : Nat) : Scanner :=
  { s with rest := s.rest.drop count, offset := s.offset + byteCount (s.rest.take count) }

/-- The scanner behind the white space that comes next. -/
def skipBlanks (s : Scanner) : Scanner :=
  s.drop (s.rest.takeWhile Text.isWhiteSpace).length

/-- The operator or punctuation mark, other than a bracket, that some characters start with. -/
def mark? : List Char → Option Token
  | '*' :: '*' :: _ => some .power
  | '>' :: '=' :: _ => some .greaterEq
  | '<' :: '=' :: _ => some .lessEq
  | '=' :: '=' :: _ => some .eqEq
  | '&' :: '&' :: _ => some .andAnd
  | '|' :: '|' :: _ => some .orOr
  | '*' :: _ => some .star
  | '/' :: _ => some .slash
  | '%' :: _ => some .percent
  | '+' :: _ => some .plus
  | '-' :: _ => some .minus
  | '>' :: _ => some .greater
  | '<' :: _ => some .less
  | '=' :: _ => some .assign
  | '!' :: _ => some .bang
  | '.' :: _ => some .dot
  | ',' :: _ => some .comma
  | ';' :: _ => some .semicolon
  | _ => none

/-- The token that the characters `c :: cs` start with. -/
def token? (s : Scanner) (c : Char) (cs : List Char) : Option Token :=
  if c.isDigit then some (.number (String.ofList (c :: cs.takeWhile isNumberChar)))
  else if isWordStart c then
    let word := String.ofList (c :: cs.takeWhile isWordChar)
    match cs.dropWhile isWordChar with
    | '.' :: _ => some (.qualifier word)
    | _ => some (.ofWord word)
  else if c = '\x7b' then some (.lbrace s.braces)
  else if c = '\x7d' then some (.rbrace (s.braces - 1))
  else if c = '(' then some (.lparen s.parens)
  else if c = ')' then some (.rparen (s.parens - 1))
  else mark? (c :: cs)

/-- The scanner with its counts of open brackets after a token. -/
def count (s : Scanner) : Token → Scanner
  | .lbrace d => { s with braces := d + 1 }
  | .rbrace d => { s with braces := d }
  | .lparen d => { s with parens := d + 1 }
  | .rparen d => { s with parens := d }
  | _ => s

/-- One step: the next token or error, and the scanner behind it. -/
def next (s : Scanner) : Except SourceError Lexeme × Scanner :=
  let s := s.skipBlanks
  match s.rest with
  | [] => (.ok ⟨.eof, ⟨s.offset, s.offset⟩⟩, s)
  | c :: cs =>
    match s.token? c cs with
    | some token =>
      let s' := s.drop token.text.length
      (.ok ⟨token, ⟨s.offset, s'.offset⟩⟩, s'.count token)
    | none =>
      let s' := s.drop 1
      (.error (.unexpectedChar ⟨s.offset, s'.offset⟩ c), s')

/-- The results of a number of steps. -/
def steps : Nat → Scanner → List (Except SourceError Lexeme)
  | 0, _ => []
  | n + 1, s => s.next.1 :: steps n s.next.2

/-- The tokens of all that remains, the end included, or the first error. Every step before the end
takes a character, so as many steps as there are characters reach the end. -/
def tokens : Nat → Scanner → Except SourceError (List Lexeme)
  | 0, s => .ok [⟨.eof, ⟨s.offset, s.offset⟩⟩]
  | n + 1, s =>
    match s.next with
    | (.error e, _) => .error e
    | (.ok l, s') =>
      if l.token = .eof then .ok [l]
      else (tokens n s').map (l :: ·)

end Scanner

/-- The tokens of a text, the last of which is its end. -/
def tokenize (source : String) : Except SourceError (List Lexeme) :=
  let s := Scanner.ofChars source.toList
  s.tokens s.rest.length

end ScriptGraph
