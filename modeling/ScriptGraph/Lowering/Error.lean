import ScriptGraph.SourceError
import ScriptGraph.ValueType

/-!
# What can be wrong with a program

`LoweringError` names the causes for which a program tree has no graph. `message` words them.
-/

namespace ScriptGraph

/-- Why a program has no graph. -/
inductive LoweringError : Type where
  /-- a name that is bound to nothing -/
  | unknownIdentifier (span : Span) (name : String)
  /-- a function that the table of builtins does not list -/
  | unknownMember (span : Span) (receiver member : String)
  /-- an operator that the table of builtins does not list for its operands -/
  | unknownOperator (operator : String) (operand : ValueType)
  /-- a component that no vector has -/
  | invalidComponent (span : Span) (receiver member : String)
  /-- a type that does not exist, or that has no constructor -/
  | unknownType (span : Span) (name : String)
  /-- a local variable without an initial value -/
  | uninitializedLocal (span : Span) (name : String)
  /-- a statement behind a return in the same body -/
  | unreachableStatement (span : Span)
  /-- a public declaration with an initial value -/
  | publicInitializer (span : Span) (name : String)
  deriving DecidableEq, Repr, Inhabited

namespace LoweringError

/-- The place of an error, if it has one. -/
def span? : LoweringError → Option Span
  | .unknownIdentifier span _ => some span
  | .unknownMember span _ _ => some span
  | .unknownOperator _ _ => none
  | .invalidComponent span _ _ => some span
  | .unknownType span _ => some span
  | .uninitializedLocal span _ => some span
  | .unreachableStatement span => some span
  | .publicInitializer span _ => some span

/-- The message of an error. -/
def message : LoweringError → String
  | .unknownIdentifier span name =>
    "Unknown variable " ++ Text.quoted name ++ span.positionText
  | .unknownMember span receiver member =>
    "Unknown class or variable " ++ Text.quoted (receiver ++ "." ++ member) ++
      span.positionText
  | .unknownOperator operator operand =>
    "No builtin for operator " ++ Text.quoted operator ++ " on " ++ operand.name
  | .invalidComponent span receiver member =>
    "Invalid component " ++ Text.quoted member ++ " of " ++ Text.quoted receiver ++
      ", expected X, Y or Z" ++ span.positionText
  | .unknownType span name => "Unknown type " ++ Text.quoted name ++ span.positionText
  | .uninitializedLocal span name =>
    "Local variable must be initialized " ++ Text.quoted name ++ span.positionText
  | .unreachableStatement span => "Unreachable statement after return" ++ span.positionText
  | .publicInitializer span name =>
    "Public variable cannot be initialized " ++ Text.quoted name ++ span.positionText

end LoweringError

end ScriptGraph
