import ScriptGraph.Parsing.Expression

/-!
# Reading statements

A statement is known by its first token. Blocks and branches lead from statements to statements, and
every statement takes a token first, so the number of tokens that remain bounds nesting and
repetition here as it does for expressions. A block runs up to the closing brace of the depth of its
opening brace, and an `else` belongs to the nearest `if` before it.
-/

namespace ScriptGraph

namespace Parser

/-- Reads statements and the closing brace that belongs to `opening`. -/
def block (closing : Closing) (statement : Parser Stmt) (opening : Lexeme) :
    Nat → Parser (List Stmt)
  | 0 => throw (.unmatchedDelimiter opening.span '\x7b')
  | n + 1 => do
    if ← closing (.rbrace (opening.token.depth?.getD 0)) then
      return []
    else if ← atEnd then
      throw (.unmatchedDelimiter opening.span '\x7b')
    else
      let first ← statement
      let others ← block closing statement opening n
      return first :: others

/-- Reads one branch of a choice: a block, or a single statement. -/
def branchBody (closing : Closing) (n : Nat) (statement : Parser Stmt) :
    Parser (List Stmt) := do
  match ← eat? (.lbrace 0) with
  | some opening => block closing statement opening n
  | none => return [← statement]

/-- Reads an assignment operator. The two-character operators are pairs of tokens. -/
def assignOp : Parser AssignOp := do
  if ← eat .plus then
    if ← eat .plus then
      return .increment
    else
      discard (expect .assign "'=' after '+'")
      return .add
  else if ← eat .minus then
    if ← eat .minus then
      return .decrement
    else
      discard (expect .assign "'=' after '-'")
      return .sub
  else if ← eat .star then
    discard (expect .assign "'=' after '*'")
    return .mul
  else if ← eat .slash then
    discard (expect .assign "'=' after '/'")
    return .div
  else if ← eat .percent then
    discard (expect .assign "'=' after '%'")
    return .mod
  else
    discard (expect .assign "assignment operator")
    return .set

/-- Reads the operand of an assignment; an increment and a decrement have the operand one. -/
def assignValue (closing : Closing) (n : Nat) : AssignOp → Parser Expr
  | .increment => return .number 1
  | .decrement => return .number 1
  | _ => expressionWithin closing n

/-- Reads the place from the start of a statement to the token read last. -/
def spanFrom (start : Span) : Parser Span := do
  return start.merge (← lastSpan)

/-- Reads a statement of at most `n` tokens, the bound for all that it contains. -/
def statementWithin (closing : Closing) : Nat → Parser Stmt
  | 0 => failHere "statement"
  | n + 1 => do
    let l ← advance
    match l.token with
    | .keyIf =>
      let opening ← expect (.lparen 0) "'(' after 'if'"
      let test ← expressionWithin closing n
      closeParen closing opening "')' after if condition"
      let thenBody ← branchBody closing n (statementWithin closing n)
      let elseBody ←
        if ← eat .keyElse then some <$> branchBody closing n (statementWithin closing n)
        else pure none
      return .branch test thenBody elseBody (← spanFrom l.span)
    | .typeName type =>
      let name ← expectIdent "variable name"
      let init ← if ← eat .assign then some <$> expressionWithin closing n else pure none
      discard (expect .semicolon "';'")
      return .declare ⟨type, name, init, false⟩ (← spanFrom l.span)
    | .keyPublic =>
      let type ← expectTypeName "type name"
      let name ← expectIdent "variable name"
      if ← check .assign then
        throw (.publicInitializer name.span name.text)
      else
        discard (expect .semicolon "';'")
        return .declare ⟨type.text, name, none, true⟩ (← spanFrom l.span)
    | .ident text =>
      let op ← assignOp
      let value ← assignValue closing n op
      discard (expect .semicolon "';'")
      return .assign ⟨text, l.span⟩ op value (← spanFrom l.span)
    | .qualifier text =>
      let (member, args) ← callTail closing n (expressionWithin closing n)
      discard (expect .semicolon "';'")
      return .call ⟨text, l.span⟩ member args (← spanFrom l.span)
    | .keyReturn =>
      let opening ← expect (.lparen 0) "'(' after 'return'"
      let values ← arguments closing (expressionWithin closing n) opening n
      discard (expect .semicolon "';'")
      return .ret values (← spanFrom l.span)
    | _ => failAt l "statement"

/-- Reads a statement whose closing brackets are found by `closing`. -/
def statementBy (closing : Closing) : Parser Stmt := do
  statementWithin closing (← remaining)

/-- Reads a statement. -/
def statement : Parser Stmt :=
  statementBy eatExact

end Parser

end ScriptGraph
