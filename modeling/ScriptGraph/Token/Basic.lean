/-!
# Tokens and their places in the source

* `Span`: a stretch of the source, in bytes of its UTF-8 form;
* `Token`: what one stretch means; a bracket also says how deeply it is nested, so that the two
  brackets of a pair carry the same depth;
* `Lexeme`: a token at its place.
-/

namespace ScriptGraph

/-- A stretch of the source, from the byte `start` up to but not including the byte `stop`. -/
structure Span where
  /-- the first byte -/
  start : Nat
  /-- the byte behind the last one -/
  stop : Nat
  deriving DecidableEq, Repr, Inhabited

/-- The least stretch that covers two others. -/
def Span.merge (a b : Span) : Span :=
  ⟨min a.start b.start, max a.stop b.stop⟩

/-- One token of the language. -/
inductive Token : Type where
  /-- an identifier -/
  | ident (text : String)
  /-- a word directly followed by a dot -/
  | qualifier (text : String)
  /-- a number literal, as written -/
  | number (text : String)
  /-- the name of a value type -/
  | typeName (text : String)
  | keyDef
  | keyIf
  | keyElse
  | keyReturn
  | keyPublic
  | keyNew
  | power
  | star
  | slash
  | percent
  | plus
  | minus
  | greater
  | greaterEq
  | less
  | lessEq
  | eqEq
  | andAnd
  | orOr
  | bang
  | dot
  | comma
  | semicolon
  | assign
  /-- an opening brace inside `depth` others -/
  | lbrace (depth : Int)
  /-- a closing brace that leaves `depth` open ones -/
  | rbrace (depth : Int)
  /-- an opening parenthesis inside `depth` others -/
  | lparen (depth : Int)
  /-- a closing parenthesis that leaves `depth` open ones -/
  | rparen (depth : Int)
  /-- the end of the source -/
  | eof
  deriving DecidableEq, Repr, Inhabited

namespace Token

/-- The text of a token as it stands in the source. -/
def text : Token → String
  | .ident s => s
  | .qualifier s => s
  | .number s => s
  | .typeName s => s
  | .keyDef => "def"
  | .keyIf => "if"
  | .keyElse => "else"
  | .keyReturn => "return"
  | .keyPublic => "public"
  | .keyNew => "new"
  | .power => "**"
  | .star => "*"
  | .slash => "/"
  | .percent => "%"
  | .plus => "+"
  | .minus => "-"
  | .greater => ">"
  | .greaterEq => ">="
  | .less => "<"
  | .lessEq => "<="
  | .eqEq => "=="
  | .andAnd => "&&"
  | .orOr => "||"
  | .bang => "!"
  | .dot => "."
  | .comma => ","
  | .semicolon => ";"
  | .assign => "="
  | .lbrace _ => "\x7b"
  | .rbrace _ => "\x7d"
  | .lparen _ => "("
  | .rparen _ => ")"
  | .eof => "EOF"

/-- The nesting depth of a bracket. -/
def depth? : Token → Option Int
  | .lbrace d => some d
  | .rbrace d => some d
  | .lparen d => some d
  | .rparen d => some d
  | _ => none

/-- The token without its text or depth: two tokens are of one kind if these agree. -/
def bare : Token → Token
  | .ident _ => .ident ""
  | .qualifier _ => .qualifier ""
  | .number _ => .number ""
  | .typeName _ => .typeName ""
  | .lbrace _ => .lbrace 0
  | .rbrace _ => .rbrace 0
  | .lparen _ => .lparen 0
  | .rparen _ => .rparen 0
  | t => t

/-- Are two tokens of one kind, whatever their texts and depths? -/
def sameKind (a b : Token) : Bool :=
  a.bare == b.bare

/-- The token of a word that no dot follows: a keyword, the name of a value type or an
identifier. -/
def ofWord (word : String) : Token :=
  if word ∈ ["int", "bool", "float", "Vector2", "Vector3"] then .typeName word
  else if word = "def" then .keyDef
  else if word = "if" then .keyIf
  else if word = "else" then .keyElse
  else if word = "return" then .keyReturn
  else if word = "public" then .keyPublic
  else if word = "new" then .keyNew
  else .ident word

end Token

/-- A token at its place in the source. -/
structure Lexeme where
  /-- the token -/
  token : Token
  /-- its place -/
  span : Span
  deriving DecidableEq, Repr, Inhabited

end ScriptGraph
