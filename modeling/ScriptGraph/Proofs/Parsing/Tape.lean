import ScriptGraph.Proofs.Parsing.Reading

/-!
# Reading a tape

A cursor cannot leave its tokens, and every reader of a cursor is bounded by the tokens that remain.
Here the language is read without either precaution:

* `Tape` — a row of tokens whose last one is an end mark, made of any tokens at all;
* `TapeReader` — a reader that stands at an index of a tape. It looks tokens up by index, and what
  is no index of the tape halts it. It leaves a trail of the indexes where it stood;
* `Tape.expression`, `Tape.statement`, `Tape.program` — the readers of the language. Nothing bounds
  their loops and recursions: they are least fixed points, and a reader that does not come to an end
  has no outcome at all, which is `none`;
* `Tape.session` — calls of these readers one after the other, whether they read something or halt.

A call by which a reader comes back to itself is written `t |>.reader`. So that such a reader has an
outcome is a theorem about its loops, and so is that it never looks behind the tape.
-/

namespace ScriptGraph

/-- A row of tokens whose last one is an end mark. There may be others before it. -/
structure Tape where
  /-- the tokens -/
  lexemes : List Lexeme
  /-- the last one is an end mark -/
  ends : ∃ front mark, lexemes = front ++ [mark] ∧ mark.token = .eof

/-- The tape of some tokens. An end mark is put behind the last token if that is none. -/
def Tape.ofTokens (tokens : List Lexeme) : Tape :=
  match h : tokens.getLast? with
  | none => ⟨[⟨.eof, ⟨0, 0⟩⟩], [], _, rfl, rfl⟩
  | some l =>
    if he : l.token = .eof then
      ⟨tokens, (List.getLast?_eq_some_iff.mp h).imp fun _ hf => ⟨l, hf, he⟩⟩
    else ⟨tokens ++ [⟨.eof, ⟨l.span.stop, l.span.stop⟩⟩], tokens, _, rfl, rfl⟩

/-- Is there an end mark at an index? -/
def Tape.EndsAt (t : Tape) (i : Nat) : Prop :=
  ∃ l, t.lexemes[i]? = some l ∧ l.token = .eof

/-- Why a reader of a tape stops without a result. -/
inductive Halt : Type where
  /-- it looked at an index that the tape does not have -/
  | offTape (index : Nat)
  /-- it refused a token -/
  | refusal (error : SourceError)
  deriving DecidableEq, Repr

/-- Where a reader stands on a tape, and where it stood before. -/
structure Head where
  /-- the index where it stands -/
  index : Nat
  /-- the indexes that it left, the last one first -/
  trail : List Nat
  deriving DecidableEq, Repr

/-- The reader goes on by one. -/
def Head.next (i : Head) : Head :=
  ⟨i.index + 1, i.index :: i.trail⟩

@[simp] theorem Head.index_next (i : Head) : i.next.index = i.index + 1 := rfl

/-- A reader of a tape. It stands somewhere, also when it has halted. -/
abbrev TapeReader := ExceptT Halt (StateT Head Option)

namespace TapeReader

variable {α β : Type}

/-- What a reader does from somewhere on: its result or why it halted, and where it stands then.
There is no outcome if the reader does not come to an end. -/
def runAt (x : TapeReader α) (i : Head) : Option (Except Halt α × Head) :=
  StateT.run (ExceptT.run x) i

@[simp] theorem runAt_pure (a : α) (i : Head) :
    (pure a : TapeReader α).runAt i = some (.ok a, i) := rfl

@[simp] theorem runAt_get (i : Head) : (get : TapeReader Head).runAt i = some (.ok i, i) := rfl

@[simp] theorem runAt_modify (f : Head → Head) (i : Head) :
    (modify f : TapeReader PUnit).runAt i = some (.ok ⟨⟩, f i) := rfl

theorem runAt_bind (x : TapeReader α) (f : α → TapeReader β) (i : Head) :
    (x >>= f).runAt i =
      match x.runAt i with
      | some (.ok a, j) => (f a).runAt j
      | some (.error h, j) => some (.error h, j)
      | none => none := by
  simp only [runAt, ExceptT.run_bind, StateT.run_bind]
  rcases StateT.run (ExceptT.run x) i with _ | ⟨a | h, j⟩ <;> rfl

@[simp] theorem runAt_map (g : α → β) (x : TapeReader α) (i : Head) :
    (g <$> x).runAt i =
      match x.runAt i with
      | some (.ok a, j) => some (.ok (g a), j)
      | some (.error h, j) => some (.error h, j)
      | none => none := by
  rw [← bind_pure_comp, runAt_bind]
  rfl

end TapeReader

namespace Tape

variable (t : Tape)

/-! ## Single tokens -/

/-- The token at an index. -/
def lexemeAt (i : Nat) : TapeReader Lexeme :=
  match t.lexemes[i]? with
  | some l => return l
  | none => throw (.offTape i)

/-- Refuses what was read. -/
def refuse {α : Type} (e : SourceError) : TapeReader α :=
  throw (.refusal e)

/-- The next token, without taking it. -/
def peek : TapeReader Lexeme := do
  t.lexemeAt (← get).index

/-- Is the next token an end mark? -/
def atEnd : TapeReader Bool := do
  return (← t.peek).token == .eof

/-- Takes the next token; an end mark is looked at and left. -/
def advance : TapeReader Lexeme := do
  let l ← t.peek
  unless ← t.atEnd do
    modify Head.next
  return l

/-- The place of the token before the index; at the first index, of the token there. -/
def lastSpan : TapeReader Span := do
  return (← t.lexemeAt ((← get).index - 1)).span

/-- Is the next token of the kind of `token`? -/
def check (token : Token) : TapeReader Bool := do
  return (← t.peek).token.sameKind token

/-- Takes the next token if it is of the kind of `token`. -/
def eat? (token : Token) : TapeReader (Option Lexeme) := do
  if ← t.check token then
    return some (← t.advance)
  else
    return none

/-- Takes the next token if it is of the kind of `token`, and says whether it was. -/
def eat (token : Token) : TapeReader Bool := do
  return (← t.eat? token).isSome

/-- Takes the next token if it equals `token`, and says whether it did. -/
def eatExact (token : Token) : TapeReader Bool := do
  if (← t.peek).token = token then
    let _ ← t.advance
    return true
  else
    return false

/-- Refuses a token where `expected` was needed. -/
def failAt {α : Type} (l : Lexeme) (expected : String) : TapeReader α :=
  refuse (l.refusal expected)

/-- Refuses the next token, where `expected` was needed. -/
def failHere {α : Type} (expected : String) : TapeReader α := do
  failAt (← t.peek) expected

/-- Takes a token of the kind of `token`. -/
def expect (token : Token) (expected : String) : TapeReader Lexeme := do
  match ← t.eat? token with
  | some l => return l
  | none => t.failHere expected

/-- Takes an identifier. -/
def expectIdent (expected : String) : TapeReader Name := do
  match (← t.peek).token with
  | .ident text => return ⟨text, (← t.advance).span⟩
  | _ => t.failHere expected

/-- Takes the name of a value type. -/
def expectTypeName (expected : String) : TapeReader Name := do
  match (← t.peek).token with
  | .typeName text => return ⟨text, (← t.advance).span⟩
  | _ => t.failHere expected

/-- Takes the closing parenthesis that belongs to `opening`. -/
def closeParen (opening : Lexeme) (expected : String) : TapeReader Unit := do
  if ← t.eatExact (.rparen (opening.token.depth?.getD 0)) then
    return ()
  else if ← t.atEnd then
    refuse (.unmatchedDelimiter opening.span '(')
  else
    t.failHere expected

/-! ## Expressions -/

/-- The expression of a number literal. -/
def numberLiteral (text : String) (span : Span) : TapeReader Expr :=
  match Binary32.ofText? text with
  | some value => return .number value
  | none => refuse (.invalidNumber span text)

mutual

/-- Reads operands of some strata, the loosest first. -/
def level (t : Tape) : List Stratum → TapeReader Expr
  | [] => t |>.factor
  | stratum :: tighter => do
    let left ← t |>.level tighter
    t |>.chainFrom stratum tighter left
partial_fixpoint

/-- Reads operators of a stratum with their right operands, as long as there are any. -/
def chainFrom (t : Tape) (stratum : Stratum) (tighter : List Stratum) (left : Expr) :
    TapeReader Expr := do
  match stratum (← t.peek).token with
  | none => return left
  | some op =>
    let _ ← t.advance
    let right ← t |>.level tighter
    t |>.chainFrom stratum tighter (.binary op left right)
partial_fixpoint

/-- Reads arguments up to the closing parenthesis that belongs to `opening`. -/
def arguments (t : Tape) (opening : Lexeme) : TapeReader (List Expr) := do
  if ← t.eatExact (.rparen (opening.token.depth?.getD 0)) then
    return []
  else if ← t.atEnd then
    refuse (.unmatchedDelimiter opening.span '(')
  else
    let arg ← t |>.level Stratum.all
    unless ← t.check (.rparen 0) do
      let _ ← t.expect .comma "',' or ')'"
    let args ← t |>.arguments opening
    return arg :: args
partial_fixpoint

/-- Reads what follows the qualifier of a call. -/
def callTail (t : Tape) : TapeReader (Name × List Expr) := do
  let _ ← t.expect .dot "'.'"
  let member ← t.expectIdent "member name"
  let opening ← t.expect (.lparen 0) "'(' after member name"
  let args ← t |>.arguments opening
  return (member, args)
partial_fixpoint

/-- Reads a factor. -/
def factor (t : Tape) : TapeReader Expr := do
  let l ← t.advance
  match l.token with
  | .dot =>
    match (← t.peek).token with
    | .number digits =>
      let last ← t.advance
      numberLiteral ("0." ++ digits) (l.span.merge last.span)
    | _ => t.failHere "digits after '.'"
  | .number text => numberLiteral text l.span
  | .lparen _ =>
    let inner ← t |>.level Stratum.all
    t.closeParen l "')' after expression"
    return inner
  | .ident text => return .var ⟨text, l.span⟩
  | .minus => return .neg (← t |>.factor)
  | .bang => return .not (← t |>.factor)
  | .keyNew =>
    let type ← t.expectTypeName "type name after 'new'"
    let opening ← t.expect (.lparen 0) "'(' after type name"
    return .construct type (← t |>.arguments opening)
  | .qualifier text =>
    let (member, args) ← t |>.callTail
    return .call ⟨text, l.span⟩ member args
  | _ => failAt l "expression"
partial_fixpoint

end

/-- Reads an expression. -/
def expression : TapeReader Expr :=
  t.level Stratum.all

/-! ## Statements -/

/-- Reads an assignment operator. -/
def assignOp : TapeReader AssignOp := do
  if ← t.eat .plus then
    if ← t.eat .plus then
      return .increment
    else
      let _ ← t.expect .assign "'=' after '+'"
      return .add
  else if ← t.eat .minus then
    if ← t.eat .minus then
      return .decrement
    else
      let _ ← t.expect .assign "'=' after '-'"
      return .sub
  else if ← t.eat .star then
    let _ ← t.expect .assign "'=' after '*'"
    return .mul
  else if ← t.eat .slash then
    let _ ← t.expect .assign "'=' after '/'"
    return .div
  else if ← t.eat .percent then
    let _ ← t.expect .assign "'=' after '%'"
    return .mod
  else
    let _ ← t.expect .assign "assignment operator"
    return .set

/-- Reads the operand of an assignment. -/
def assignValue : AssignOp → TapeReader Expr
  | .increment => return .number 1
  | .decrement => return .number 1
  | _ => t.expression

/-- Reads the place from the start of a statement to the token before the index. -/
def spanFrom (start : Span) : TapeReader Span := do
  return start.merge (← t.lastSpan)

mutual

/-- Reads statements up to the closing brace that belongs to `opening`. -/
def block (t : Tape) (opening : Lexeme) : TapeReader (List Stmt) := do
  if ← t.eatExact (.rbrace (opening.token.depth?.getD 0)) then
    return []
  else if ← t.atEnd then
    refuse (.unmatchedDelimiter opening.span '\x7b')
  else
    let first ← t |>.statement
    let others ← t |>.block opening
    return first :: others
partial_fixpoint

/-- Reads one branch of a choice: a block, or a single statement. -/
def branchBody (t : Tape) : TapeReader (List Stmt) := do
  match ← t.eat? (.lbrace 0) with
  | some opening => t |>.block opening
  | none => return [← t |>.statement]
partial_fixpoint

/-- Reads a statement. -/
def statement (t : Tape) : TapeReader Stmt := do
  let start := (← t.peek).span
  let l ← t.advance
  match l.token with
  | .keyIf =>
    let opening ← t.expect (.lparen 0) "'(' after 'if'"
    let test ← t.expression
    t.closeParen opening "')' after if condition"
    let thenBody ← t |>.branchBody
    let elseBody ←
      if ← t.eat .keyElse then some <$> (t |>.branchBody) else pure none
    return .branch test thenBody elseBody (← t.spanFrom start)
  | .typeName type =>
    let name ← t.expectIdent "variable name"
    let init ← if ← t.eat .assign then some <$> t.expression else pure none
    let _ ← t.expect .semicolon "';'"
    return .declare ⟨type, name, init, false⟩ (← t.spanFrom start)
  | .keyPublic =>
    let type ← t.expectTypeName "type name"
    let name ← t.expectIdent "variable name"
    if ← t.check .assign then
      refuse (.publicInitializer name.span name.text)
    else
      let _ ← t.expect .semicolon "';'"
      return .declare ⟨type.text, name, none, true⟩ (← t.spanFrom start)
  | .ident text =>
    let op ← t.assignOp
    let value ← t.assignValue op
    let _ ← t.expect .semicolon "';'"
    return .assign ⟨text, l.span⟩ op value (← t.spanFrom start)
  | .qualifier text =>
    let (member, args) ← t.callTail
    let _ ← t.expect .semicolon "';'"
    return .call ⟨text, l.span⟩ member args (← t.spanFrom start)
  | .keyReturn =>
    let opening ← t.expect (.lparen 0) "'(' after 'return'"
    let values ← t.arguments opening
    let _ ← t.expect .semicolon "';'"
    return .ret values (← t.spanFrom start)
  | _ => failAt l "statement"
partial_fixpoint

end

/-! ## Programs -/

/-- Reads parameters, at least one, and the closing parenthesis. -/
def parameters (t : Tape) : TapeReader (List Parameter) := do
  let type ← t.expectTypeName "parameter type"
  let name ← t.expectIdent "parameter name"
  if ← t.eat (.rparen 0) then
    return [⟨type.text, name⟩]
  else
    let _ ← t.expect .comma "',' between parameters"
    let others ← t |>.parameters
    return ⟨type.text, name⟩ :: others
partial_fixpoint

/-- Reads a method behind its keyword. -/
def method : TapeReader Method := do
  let name ← t.expectIdent "method name"
  let _ ← t.expect (.lparen 0) "'(' after method name"
  let params ← if ← t.eat (.rparen 0) then pure [] else t.parameters
  let opening ← t.expect (.lbrace 0) "'\x7b' to begin method"
  let body ← t.block opening
  return ⟨name, params, body⟩

/-- Reads a global variable. -/
def globalVar : TapeReader Declaration := do
  let type ← t.expectTypeName "type name"
  let name ← t.expectIdent "variable name"
  let _ ← t.expect .semicolon "';' after variable declaration"
  return ⟨type.text, name, none, false⟩

/-- Reads declarations up to an end mark. -/
def items (t : Tape) : TapeReader (List Item) := do
  if ← t.atEnd then
    return []
  else if ← t.eat .keyDef then
    let m ← t.method
    let others ← t |>.items
    return .method m :: others
  else if ← t.check (.typeName "") then
    let d ← t.globalVar
    let others ← t |>.items
    return .globalVar d :: others
  else
    t.failHere "'def' or type name"
partial_fixpoint

/-- Reads a program, up to an end mark. -/
def program : TapeReader Program := do
  return ⟨← t.items⟩

/-! ## Calls -/

/-- A reader that is called from outside. -/
inductive Call : Type where
  | expression
  | statement
  | program
  deriving DecidableEq, Repr

/-- What a called reader reads. -/
inductive Phrase : Type where
  | expression (e : Expr)
  | statement (s : Stmt)
  | program (p : Program)

/-- The reader of a tape that is called. -/
def Call.reader : Call → TapeReader Phrase
  | .expression => return .expression (← t.expression)
  | .statement => return .statement (← t.statement)
  | .program => return .program (← t.program)

/-- A call that came to an end. -/
structure Visit where
  /-- what was called -/
  call : Call
  /-- where it began -/
  start : Head
  /-- what was read, or why the reader halted -/
  answer : Except Halt Phrase
  /-- where it ended -/
  stop : Head

/-- Calls one after the other. Each begins where the one before it ended, also if that halted. -/
def session : List Call → Head → Option (List Visit)
  | [], _ => some []
  | call :: calls, i => do
    let (answer, j) ← (call.reader t).runAt i
    let visits ← session calls j
    return ⟨call, i, answer, j⟩ :: visits

end Tape

end ScriptGraph
