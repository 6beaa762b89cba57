import ScriptGraph.Binary32.Decimal
import ScriptGraph.Token.Basic

/-!
# Program trees

A program is a list of global variables and methods; a method has typed parameters and a body of
statements; statements hold expressions. Names keep their place in the source, and so do statements,
because error messages point there.

Types are kept as written: a tree may name a type that does not exist.
-/

namespace ScriptGraph

/-- A name at its place in the source. -/
structure Name where
  /-- the name -/
  text : String
  /-- its place -/
  span : Span
  deriving DecidableEq, Repr, Inhabited

/-- A binary operator. -/
inductive BinaryOp : Type where
  | or
  | and
  | eq
  | lt
  | le
  | gt
  | ge
  | add
  | sub
  | mul
  | div
  | mod
  | pow
  deriving DecidableEq, Repr, Inhabited

/-- The text of an operator, under which the table of builtins lists it too. -/
def BinaryOp.symbol : BinaryOp → String
  | .or => "||"
  | .and => "&&"
  | .eq => "=="
  | .lt => "<"
  | .le => "<="
  | .gt => ">"
  | .ge => ">="
  | .add => "+"
  | .sub => "-"
  | .mul => "*"
  | .div => "/"
  | .mod => "%"
  | .pow => "**"

/-- An expression. -/
inductive Expr : Type where
  /-- a number literal -/
  | number (value : Binary32)
  /-- a variable, or a constant of the runtime -/
  | var (name : Name)
  /-- a change of sign -/
  | neg (inner : Expr)
  /-- a logical negation -/
  | not (inner : Expr)
  /-- an operator between two operands -/
  | binary (op : BinaryOp) (left right : Expr)
  /-- a component of a variable, or a function of the runtime -/
  | call (receiver member : Name) (args : List Expr)
  /-- a vector made of its components -/
  | construct (type : Name) (args : List Expr)
  deriving Repr, Inhabited

/-- An assignment operator. -/
inductive AssignOp : Type where
  | set
  | add
  | sub
  | mul
  | div
  | mod
  | increment
  | decrement
  deriving DecidableEq, Repr, Inhabited

namespace AssignOp

/-- The text of an assignment operator. -/
def symbol : AssignOp → String
  | .set => "="
  | .add => "+="
  | .sub => "-="
  | .mul => "*="
  | .div => "/="
  | .mod => "%="
  | .increment => "++"
  | .decrement => "--"

/-- The operator between the old value and the operand, if the old value takes part. -/
def binaryOp? : AssignOp → Option BinaryOp
  | .set => none
  | .add => some .add
  | .sub => some .sub
  | .mul => some .mul
  | .div => some .div
  | .mod => some .mod
  | .increment => some .add
  | .decrement => some .sub

end AssignOp

/-- A declaration of a variable. -/
structure Declaration where
  /-- the type, as written -/
  type : String
  /-- the name -/
  name : Name
  /-- the initial value -/
  init : Option Expr
  /-- is the variable shown in the editor? -/
  isPublic : Bool
  deriving Repr, Inhabited

/-- A statement with its place in the source. -/
inductive Stmt : Type where
  /-- a local variable -/
  | declare (declaration : Declaration) (span : Span)
  /-- an assignment; an increment and a decrement carry the value one -/
  | assign (target : Name) (op : AssignOp) (value : Expr) (span : Span)
  /-- a choice between two bodies; the second may be missing -/
  | branch (test : Expr) (thenBody : List Stmt) (elseBody : Option (List Stmt)) (span : Span)
  /-- the results of the method -/
  | ret (values : List Expr) (span : Span)
  /-- a call whose result is dropped -/
  | call (receiver member : Name) (args : List Expr) (span : Span)
  deriving Repr, Inhabited

/-- The place of a statement. -/
def Stmt.span : Stmt → Span
  | .declare _ span => span
  | .assign _ _ _ span => span
  | .branch _ _ _ span => span
  | .ret _ span => span
  | .call _ _ _ span => span

/-- A parameter of a method. -/
structure Parameter where
  /-- the type, as written -/
  type : String
  /-- the name -/
  name : Name
  deriving DecidableEq, Repr, Inhabited

/-- A method. -/
structure Method where
  /-- the name -/
  name : Name
  /-- the parameters, in order -/
  params : List Parameter
  /-- the statements, in order -/
  body : List Stmt
  deriving Repr, Inhabited

/-- A declaration at the top level. -/
inductive Item : Type where
  /-- a method -/
  | method (method : Method)
  /-- a global variable -/
  | globalVar (declaration : Declaration)
  deriving Repr, Inhabited

/-- A program: its declarations in order. -/
structure Program where
  /-- the declarations -/
  items : List Item
  deriving Repr, Inhabited

namespace Program

/-- The name of the one method that a program may have. -/
def entryName : String := "Main"

/-- The methods of a program, in order. -/
def methods (p : Program) : List Method :=
  p.items.filterMap fun
    | .method m => some m
    | .globalVar _ => none

/-- The global variables of a program, in order. -/
def globals (p : Program) : List Declaration :=
  p.items.filterMap fun
    | .method _ => none
    | .globalVar d => some d

/-- The first method with the entry name. -/
def entry? (p : Program) : Option Method :=
  p.methods.find? fun m => m.name.text == entryName

end Program

/-! ## Views of expressions -/

mutual

/-- An expression in bracketed form, operator first. -/
def Expr.text : Expr → String
  | .number value => value.text
  | .var name => name.text
  | .neg inner => "(neg " ++ inner.text ++ ")"
  | .not inner => "(! " ++ inner.text ++ ")"
  | .binary op left right => "(" ++ op.symbol ++ " " ++ left.text ++ " " ++ right.text ++ ")"
  | .call receiver member args =>
    "(" ++ receiver.text ++ "." ++ member.text ++ Expr.argsText args ++ ")"
  | .construct type args => "(new " ++ type.text ++ Expr.argsText args ++ ")"

/-- Arguments in bracketed form, each behind a blank. -/
def Expr.argsText : List Expr → String
  | [] => ""
  | arg :: args => " " ++ arg.text ++ Expr.argsText args

end

mutual

/-- The names in an expression, each before those in its arguments, from left to right. -/
def Expr.names : Expr → List Name
  | .number _ => []
  | .var name => [name]
  | .neg inner => inner.names
  | .not inner => inner.names
  | .binary _ left right => left.names ++ right.names
  | .call receiver member args => receiver :: member :: Expr.argsNames args
  | .construct type args => type :: Expr.argsNames args

/-- The names in some arguments, from left to right. -/
def Expr.argsNames : List Expr → List Name
  | [] => []
  | arg :: args => arg.names ++ Expr.argsNames args

end

end ScriptGraph
