import ScriptGraph.Parsing.Statement
import ScriptGraph.Token.Scanner

/-!
# Reading programs

A program is read to the end of its source: methods behind their keyword, and global variables.
`Program.parse` goes from text to program and also checks what the grammar leaves open, that the
entry method is there and is the only method.
-/

namespace ScriptGraph

namespace Parser

/-- Reads parameters, at least one, and the closing parenthesis. -/
def parameters : Nat → Parser (List Parameter)
  | 0 => failHere "parameter type"
  | n + 1 => do
    let type ← expectTypeName "parameter type"
    let name ← expectIdent "parameter name"
    if ← eat (.rparen 0) then
      return [⟨type.text, name⟩]
    else
      discard (expect .comma "',' between parameters")
      let others ← parameters n
      return ⟨type.text, name⟩ :: others

/-- Reads a method behind its keyword. -/
def method (closing : Closing) (n : Nat) : Parser Method := do
  let name ← expectIdent "method name"
  discard (expect (.lparen 0) "'(' after method name")
  let params ← if ← eat (.rparen 0) then pure [] else parameters n
  let opening ← expect (.lbrace 0) "'\x7b' to begin method"
  let body ← block closing (statementWithin closing n) opening n
  return ⟨name, params, body⟩

/-- Reads a global variable. -/
def globalVar : Parser Declaration := do
  let type ← expectTypeName "type name"
  let name ← expectIdent "variable name"
  discard (expect .semicolon "';' after variable declaration")
  return ⟨type.text, name, none, false⟩

/-- Reads declarations to the end of the source. -/
def items (closing : Closing) : Nat → Parser (List Item)
  | 0 => return []
  | n + 1 => do
    if ← atEnd then
      return []
    else if ← eat .keyDef then
      let m ← method closing n
      let others ← items closing n
      return .method m :: others
    else if ← check (.typeName "") then
      let d ← globalVar
      let others ← items closing n
      return .globalVar d :: others
    else
      failHere "'def' or type name"

/-- Reads a program whose closing brackets are found by `closing`. -/
def programBy (closing : Closing) : Parser Program := do
  return ⟨← items closing (← remaining)⟩

/-- Reads a program, to the end of the source. -/
def program : Parser Program :=
  programBy eatExact

end Parser

/-! ## From text to program -/

namespace Program

/-- Checks the methods of a program in order; `seen` says whether the entry method came before. -/
def checkMethods (seen : Bool) : List Method → Except SourceError Unit
  | [] => if seen then .ok () else .error .missingEntry
  | m :: ms =>
    if m.name.text ≠ entryName then .error (.invalidMethod m.name.span m.name.text)
    else if seen then .error (.duplicateMethod m.name.span m.name.text)
    else checkMethods true ms

/-- Checks that a program has exactly one method, the entry method. -/
def checkEntry (p : Program) : Except SourceError Unit :=
  checkMethods false p.methods

/-- Reads a program from its tokens, without a check of its methods. -/
def ofTokens (tokens : List Lexeme) : Except SourceError Program :=
  match Parser.program (Cursor.ofTokens tokens) with
  | .ok p _ => .ok p
  | .error e _ => .error e

/-- Reads a program from its source text. -/
def parse (source : String) : Except SourceError Program := do
  let tokens ← tokenize source
  let p ← ofTokens tokens
  p.checkEntry
  return p

end Program

end ScriptGraph
