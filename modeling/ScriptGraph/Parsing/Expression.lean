import ScriptGraph.Parsing.Cursor

/-!
# Reading expressions

Binary operators lie in seven strata. Each stratum is a chain of operands of the next tighter one,
folded to the left; the operands of the tightest stratum are factors. A factor is a number, a name,
a call, a constructor, a parenthesised expression or a factor behind a sign or a negation.

Recursion passes through factors alone, and every factor takes a token first. So the number of
tokens that remain bounds the depth of nesting, and it bounds every repetition too, since each round
takes a token. All readers here are given such a bound `n`. Where it reaches zero the source has
ended, and what they do then is what the end of the source demands.
-/

namespace ScriptGraph

/-- A group of operators that bind equally tightly: which tokens are operators of it. -/
abbrev Stratum := Token → Option BinaryOp

namespace Stratum

/-- Disjunction. -/
def or : Stratum
  | .orOr => some .or
  | _ => none

/-- Conjunction. -/
def and : Stratum
  | .andAnd => some .and
  | _ => none

/-- Equality. -/
def equality : Stratum
  | .eqEq => some .eq
  | _ => none

/-- Comparisons. -/
def relational : Stratum
  | .greater => some .gt
  | .greaterEq => some .ge
  | .less => some .lt
  | .lessEq => some .le
  | _ => none

/-- Sums and differences. -/
def additive : Stratum
  | .plus => some .add
  | .minus => some .sub
  | _ => none

/-- Products, quotients and remainders. -/
def multiplicative : Stratum
  | .star => some .mul
  | .slash => some .div
  | .percent => some .mod
  | _ => none

/-- Powers. -/
def power : Stratum
  | .power => some .pow
  | _ => none

/-- All strata, the loosest first. -/
def all : List Stratum :=
  [or, and, equality, relational, additive, multiplicative, power]

end Stratum

namespace Parser

/-- Reads operators of a stratum with their right operands and folds them to the left. -/
def chainFrom (stratum : Stratum) (operand : Parser Expr) : Nat → Expr → Parser Expr
  | 0, left => return left
  | n + 1, left => do
    match stratum (← peek).token with
    | none => return left
    | some op =>
      discard advance
      let right ← operand
      chainFrom stratum operand n (.binary op left right)

/-- Reads operands with operators of a stratum between them. -/
def chain (n : Nat) (stratum : Stratum) (operand : Parser Expr) : Parser Expr := do
  let left ← operand
  chainFrom stratum operand n left

/-- Reads an expression whose factors are read by `factor`. -/
def strata (n : Nat) (factor : Parser Expr) : Parser Expr :=
  Stratum.all.foldr (chain n) factor

/-- Reads arguments and the closing parenthesis that belongs to `opening`. A comma stands behind
every argument that no closing parenthesis follows. -/
def arguments (closing : Closing) (expression : Parser Expr) (opening : Lexeme) :
    Nat → Parser (List Expr)
  | 0 => throw (.unmatchedDelimiter opening.span '(')
  | n + 1 => do
    if ← closing (.rparen (opening.token.depth?.getD 0)) then
      return []
    else if ← atEnd then
      throw (.unmatchedDelimiter opening.span '(')
    else
      let arg ← expression
      unless ← check (.rparen 0) do
        discard (expect .comma "',' or ')'")
      let args ← arguments closing expression opening n
      return arg :: args

/-- Reads what follows the qualifier of a call: a dot, the member and the arguments. -/
def callTail (closing : Closing) (n : Nat) (expression : Parser Expr) :
    Parser (Name × List Expr) := do
  discard (expect .dot "'.'")
  let member ← expectIdent "member name"
  let opening ← expect (.lparen 0) "'(' after member name"
  let args ← arguments closing expression opening n
  return (member, args)

/-- The expression of a number literal. -/
def numberLiteral (text : String) (span : Span) : Parser Expr :=
  match Binary32.ofText? text with
  | some value => return .number value
  | none => throw (.invalidNumber span text)

/-- Reads a factor. -/
def factor (closing : Closing) : Nat → Parser Expr
  | 0 => failHere "expression"
  | n + 1 => do
    let l ← advance
    match l.token with
    | .dot =>
      match (← peek).token with
      | .number digits =>
        let last ← advance
        numberLiteral ("0." ++ digits) (l.span.merge last.span)
      | _ => failHere "digits after '.'"
    | .number text => numberLiteral text l.span
    | .lparen _ =>
      let inner ← strata n (factor closing n)
      closeParen closing l "')' after expression"
      return inner
    | .ident text => return .var ⟨text, l.span⟩
    | .minus => return .neg (← factor closing n)
    | .bang => return .not (← factor closing n)
    | .keyNew =>
      let type ← expectTypeName "type name after 'new'"
      let opening ← expect (.lparen 0) "'(' after type name"
      return .construct type (← arguments closing (strata n (factor closing n)) opening n)
    | .qualifier text =>
      let (member, args) ← callTail closing n (strata n (factor closing n))
      return .call ⟨text, l.span⟩ member args
    | _ => failAt l "expression"

/-- Reads an expression of at most `n` tokens, the bound for all that it contains. -/
def expressionWithin (closing : Closing) (n : Nat) : Parser Expr :=
  strata n (factor closing n)

/-- Reads an expression whose closing brackets are found by `closing`. -/
def expressionBy (closing : Closing) : Parser Expr := do
  expressionWithin closing (← remaining)

/-- Reads an expression. -/
def expression : Parser Expr :=
  expressionBy eatExact

end Parser

end ScriptGraph
