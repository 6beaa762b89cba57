import ScriptGraph.Proofs.Parsing.Reading
import ScriptGraph.Proofs.Parsing.Rendering

/-!
# Readers do not look at places

Places go through a reader from tokens to trees and to errors, and no reader decides anything by
them. So reading the same tokens at other places gives the same tree at other places, or the same
error.

* `Lexeme.unplaced`, `Cursor.unplaced`, `SourceError.unplaced` — tokens, cursors and errors without
  their places;
* `Unplaces f p q` — what `p` does on tokens, `q` does on tokens without places. It holds of a
  sequence if it holds of the parts, so there is one lemma for each reader;
* `Program.parse_of_tokens_eq` — hence texts with the same tokens are the same program at other
  places, or they are refused for the same reason.
-/

namespace ScriptGraph

/-- A token without its place. -/
def Lexeme.unplaced (l : Lexeme) : Lexeme :=
  ⟨l.token, ⟨0, 0⟩⟩

/-- A cursor before the same tokens without their places. -/
def Cursor.unplaced (c : Cursor) : Cursor :=
  ⟨c.rest.map Lexeme.unplaced, ⟨0, 0⟩, ⟨0, 0⟩⟩

/-- The cause of an error with all that it reports but its place. -/
def SourceError.unplaced : SourceError → SourceError
  | .unexpectedChar _ c => .unexpectedChar ⟨0, 0⟩ c
  | .unexpectedToken _ expected found => .unexpectedToken ⟨0, 0⟩ expected found
  | .unexpectedEnd _ needed => .unexpectedEnd ⟨0, 0⟩ needed
  | .invalidNumber _ text => .invalidNumber ⟨0, 0⟩ text
  | .unmatchedDelimiter _ delimiter => .unmatchedDelimiter ⟨0, 0⟩ delimiter
  | .publicInitializer _ name => .publicInitializer ⟨0, 0⟩ name
  | .invalidMethod _ name => .invalidMethod ⟨0, 0⟩ name
  | .duplicateMethod _ name => .duplicateMethod ⟨0, 0⟩ name
  | .missingEntry => .missingEntry

theorem Lexeme.refusal_unplaced (l : Lexeme) (expected : String) :
    l.unplaced.refusal expected = (l.refusal expected).unplaced := by
  by_cases h : l.token = .eof <;> simp [Lexeme.refusal, Lexeme.unplaced, h, SourceError.unplaced]

namespace Cursor

theorem head_unplaced (c : Cursor) : c.unplaced.head = c.head.unplaced := by
  rcases c with ⟨_ | ⟨l, rest⟩, stop, last⟩ <;> rfl

theorem tail_unplaced (c : Cursor) : c.unplaced.tail = c.tail.unplaced := by
  rcases c with ⟨_ | ⟨l, rest⟩, stop, last⟩ <;> rfl

/-- Which of some tokens are read depends on the tokens alone. -/
theorem unplaced_ofTokens (tokens : List Lexeme) :
    (ofTokens tokens).unplaced =
      ⟨((tokens.map Lexeme.token).takeWhile (· != .eof)).map fun t => ⟨t, ⟨0, 0⟩⟩,
        ⟨0, 0⟩, ⟨0, 0⟩⟩ := by
  rw [unplaced, List.takeWhile_map, List.map_map]
  rfl

end Cursor

namespace Parser

variable {α α' β β' : Type}

/-- An outcome without places. -/
def unplacedOutcome (f : α → α') :
    EStateM.Result SourceError Cursor α → EStateM.Result SourceError Cursor α'
  | .ok a c => .ok (f a) c.unplaced
  | .error e c => .error e.unplaced c.unplaced

/-- What `p` does on some tokens, `q` does on the same tokens without their places; `f` takes the
places out of the result. -/
def Unplaces (f : α → α') (p : Parser α) (q : Parser α') : Prop :=
  ∀ c, q.run c.unplaced = unplacedOutcome f (p.run c)

namespace Unplaces

variable {f : α → α'} {g : β → β'}

/-! ## Composition -/

theorem pure (a : α) : Unplaces f (pure a) (pure (f a)) :=
  fun _ => rfl

theorem throw (e : SourceError) : Unplaces f (throw e) (throw e.unplaced) :=
  fun _ => rfl

theorem bind {p : Parser α} {q : Parser α'} {k : α → Parser β} {k' : α' → Parser β'}
    (h : Unplaces f p q) (hk : ∀ a, Unplaces g (k a) (k' (f a))) :
    Unplaces g (p >>= k) (q >>= k') := by
  intro c
  rw [run_bind, run_bind, h c]
  rcases p.run c with ⟨a, c'⟩ | ⟨e, c'⟩
  · exact hk a c'
  · rfl

theorem ite {p p' : Parser α} {q q' : Parser α'} (h : Unplaces f p q) (h' : Unplaces f p' q')
    (b : Bool) : Unplaces f (if b = true then p else p') (if b = true then q else q') := by
  cases b with
  | true => exact h
  | false => exact h'

/-! ## Primitive readers -/

theorem peek : Unplaces Lexeme.unplaced peek peek := by
  intro c
  rw [run_peek, run_peek, c.head_unplaced]
  rfl

theorem advance : Unplaces Lexeme.unplaced advance advance := by
  intro c
  rw [run_advance, run_advance, c.head_unplaced, c.tail_unplaced]
  rfl

theorem remaining : Unplaces id remaining remaining := by
  intro c
  rw [run_remaining, run_remaining, Cursor.unplaced, List.length_map]
  rfl

theorem atEnd : Unplaces id atEnd atEnd := by
  intro c
  rw [run_atEnd, run_atEnd, c.head_unplaced]
  rfl

theorem check (token : Token) : Unplaces id (check token) (check token) := by
  intro c
  rw [run_check, run_check, c.head_unplaced]
  rfl

theorem eat? (token : Token) : Unplaces (Option.map Lexeme.unplaced) (eat? token) (eat? token) := by
  refine (check token).bind fun b => ?_
  cases b with
  | true => exact advance.bind fun _ => pure _
  | false => exact pure none

theorem eat (token : Token) : Unplaces id (eat token) (eat token) := by
  refine (eat? token).bind fun found => ?_
  cases found <;> exact pure _

theorem eatExact (token : Token) : Unplaces id (eatExact token) (eatExact token) := by
  intro c
  rw [run_eatExact, run_eatExact, c.head_unplaced, c.tail_unplaced]
  by_cases h : c.head.token = token <;> simp [Lexeme.unplaced, h, unplacedOutcome]

theorem failHere (expected : String) :
    Unplaces f (failHere expected) (failHere expected) := by
  intro c
  rw [run_failHere, run_failHere, c.head_unplaced, Lexeme.refusal_unplaced]
  rfl

theorem failAt (l : Lexeme) (expected : String) :
    Unplaces f (failAt l expected) (failAt l.unplaced expected) := by
  intro c
  rw [run_failAt, run_failAt, Lexeme.refusal_unplaced]
  rfl

theorem expect (token : Token) (expected : String) :
    Unplaces Lexeme.unplaced (expect token expected) (expect token expected) := by
  refine (eat? token).bind fun found => ?_
  cases found with
  | none => exact failHere expected
  | some l => exact pure l

theorem expectIdent (expected : String) :
    Unplaces Name.unplaced (expectIdent expected) (expectIdent expected) := by
  refine peek.bind fun l => ?_
  rcases l with ⟨t, s⟩
  cases t with
  | ident text => exact advance.bind fun _ => pure _
  | _ => exact failHere expected

theorem expectTypeName (expected : String) :
    Unplaces Name.unplaced (expectTypeName expected) (expectTypeName expected) := by
  refine peek.bind fun l => ?_
  rcases l with ⟨t, s⟩
  cases t with
  | typeName text => exact advance.bind fun _ => pure _
  | _ => exact failHere expected

theorem spanFrom (start : Span) :
    Unplaces (fun _ => ⟨0, 0⟩) (spanFrom start) (spanFrom ⟨0, 0⟩) :=
  fun _ => rfl

/-! ## Expressions -/

theorem closeParen (opening : Lexeme) (expected : String) :
    Unplaces id (closeParen Parser.eatExact opening expected)
      (closeParen Parser.eatExact opening.unplaced expected) :=
  (eatExact _).bind fun b => .ite (pure ())
    (atEnd.bind fun b =>
      .ite (throw (.unmatchedDelimiter opening.span '(')) (failHere expected) b) b

theorem chainFrom (stratum : Stratum) {operand : Parser Expr}
    (ho : Unplaces (Expr.map .unplaced) operand operand) (n : Nat) (left : Expr) :
    Unplaces (Expr.map .unplaced) (chainFrom stratum operand n left)
      (chainFrom stratum operand n (left.map .unplaced)) := by
  induction n generalizing left with
  | zero => exact pure left
  | succ n ih =>
    refine peek.bind fun l => ?_
    rcases hs : stratum l.token with _ | op
    · simp only [Lexeme.unplaced, hs]
      exact pure left
    · simp only [Lexeme.unplaced, hs, discard_bind]
      exact advance.bind fun _ => ho.bind fun right => ih (.binary op left right)

theorem strata (n : Nat) {factor : Parser Expr} (hf : Unplaces (Expr.map .unplaced) factor factor) :
    Unplaces (Expr.map .unplaced) (strata n factor) (strata n factor) := by
  rw [Parser.strata]
  induction Stratum.all with
  | nil => exact hf
  | cons stratum strata ih => exact ih.bind fun left => chainFrom stratum ih n left

theorem arguments {expression : Parser Expr}
    (he : Unplaces (Expr.map .unplaced) expression expression) (opening : Lexeme) (n : Nat) :
    Unplaces (Expr.mapArgs .unplaced) (arguments Parser.eatExact expression opening n)
      (arguments Parser.eatExact expression opening.unplaced n) := by
  induction n with
  | zero => exact throw (.unmatchedDelimiter opening.span '(')
  | succ n ih =>
    simp only [Parser.arguments, discard_bind]
    refine (eatExact _).bind fun b => .ite (pure []) ?_ b
    refine atEnd.bind fun b => .ite (throw (.unmatchedDelimiter opening.span '(')) ?_ b
    refine he.bind fun arg => (check _).bind fun b => .ite ?_ ?_ b
    · exact ih.bind fun _ => pure _
    · exact (expect _ _).bind fun _ => ih.bind fun _ => pure _

/-- Takes the places out of what follows the qualifier of a call. -/
abbrev unplacedTail : Name × List Expr → Name × List Expr :=
  Prod.map Name.unplaced (Expr.mapArgs .unplaced)

theorem callTail (n : Nat) {expression : Parser Expr}
    (he : Unplaces (Expr.map .unplaced) expression expression) :
    Unplaces unplacedTail (callTail Parser.eatExact n expression)
      (callTail Parser.eatExact n expression) := by
  simp only [Parser.callTail, discard_bind]
  refine (expect _ _).bind fun _ => (expectIdent _).bind fun member =>
    (expect _ _).bind fun opening => ?_
  exact (arguments he opening n).bind fun _ => pure _

theorem numberLiteral (text : String) (span : Span) :
    Unplaces (Expr.map .unplaced) (numberLiteral text span) (numberLiteral text ⟨0, 0⟩) := by
  simp only [Parser.numberLiteral]
  rcases Binary32.ofText? text with _ | value
  · exact throw (.invalidNumber span text)
  · exact pure _

theorem factor (n : Nat) :
    Unplaces (Expr.map .unplaced) (factor Parser.eatExact n) (factor Parser.eatExact n) := by
  induction n with
  | zero => exact failHere _
  | succ n ih =>
    have he := strata n ih
    refine advance.bind fun l => ?_
    rcases l with ⟨t, s⟩
    cases t with
    | dot =>
      refine peek.bind fun l' => ?_
      rcases l' with ⟨t', s'⟩
      cases t' with
      | number digits => exact advance.bind fun last => numberLiteral _ _
      | _ => exact failHere _
    | number text => exact numberLiteral text s
    | lparen d => exact he.bind fun _ => (closeParen ⟨.lparen d, s⟩ _).bind fun _ => pure _
    | ident text => exact pure _
    | minus => exact ih.bind fun _ => pure _
    | bang => exact ih.bind fun _ => pure _
    | keyNew =>
      refine (expectTypeName _).bind fun type => (expect _ _).bind fun opening => ?_
      exact (arguments he opening n).bind fun _ => pure _
    | qualifier text => exact (callTail n he).bind fun _ => pure _
    | _ => exact failAt ⟨_, s⟩ _

theorem expression (n : Nat) :
    Unplaces (Expr.map .unplaced) (expressionWithin Parser.eatExact n)
      (expressionWithin Parser.eatExact n) :=
  strata n (factor n)

/-! ## Statements -/

theorem block {statement : Parser Stmt} (hs : Unplaces (Stmt.map .unplaced) statement statement)
    (opening : Lexeme) (n : Nat) :
    Unplaces (Stmt.mapBody .unplaced) (block Parser.eatExact statement opening n)
      (block Parser.eatExact statement opening.unplaced n) := by
  induction n with
  | zero => exact throw (.unmatchedDelimiter opening.span '\x7b')
  | succ n ih =>
    refine (eatExact _).bind fun b => .ite (pure []) ?_ b
    refine atEnd.bind fun b => .ite (throw (.unmatchedDelimiter opening.span '\x7b')) ?_ b
    exact hs.bind fun _ => ih.bind fun _ => pure _

theorem branchBody (n : Nat) {statement : Parser Stmt}
    (hs : Unplaces (Stmt.map .unplaced) statement statement) :
    Unplaces (Stmt.mapBody .unplaced) (branchBody Parser.eatExact n statement)
      (branchBody Parser.eatExact n statement) := by
  refine (eat? _).bind fun found => ?_
  cases found with
  | none => exact hs.bind fun _ => pure _
  | some opening => exact block hs opening n

theorem assignOp : Unplaces id assignOp assignOp := by
  simp only [Parser.assignOp, discard_bind]
  have hop (expected : String) (op : AssignOp) :
      Unplaces id (Parser.expect .assign expected >>= fun _ => Pure.pure op)
        (Parser.expect .assign expected >>= fun _ => Pure.pure op) :=
    (expect .assign expected).bind fun _ => pure op
  refine (eat _).bind fun b => .ite ((eat _).bind fun b => .ite (pure _) (hop _ _) b) ?_ b
  refine (eat _).bind fun b => .ite ((eat _).bind fun b => .ite (pure _) (hop _ _) b) ?_ b
  refine (eat _).bind fun b => .ite (hop _ _) ((eat _).bind fun b => .ite (hop _ _) ?_ b) b
  exact (eat _).bind fun b => .ite (hop _ _) (hop _ _) b

theorem assignValue (n : Nat) (op : AssignOp) :
    Unplaces (Expr.map .unplaced) (assignValue Parser.eatExact n op)
      (assignValue Parser.eatExact n op) := by
  cases op with
  | increment => exact pure _
  | decrement => exact pure _
  | _ => exact expression n

theorem statement (n : Nat) :
    Unplaces (Stmt.map .unplaced) (statementWithin Parser.eatExact n)
      (statementWithin Parser.eatExact n) := by
  induction n with
  | zero => exact failHere _
  | succ n ih =>
    have he := expression n
    simp only [statementWithin, discard_bind, bind_map_left, pure_bind]
    refine advance.bind fun l => ?_
    rcases l with ⟨t, s⟩
    cases t with
    | keyIf =>
      refine (expect _ _).bind fun opening => he.bind fun test =>
        (closeParen opening _).bind fun _ => ?_
      refine (branchBody n ih).bind fun thenBody => (eat _).bind fun b => .ite ?_ ?_ b
      · exact (branchBody n ih).bind fun _ => (spanFrom s).bind fun _ => pure _
      · exact (spanFrom s).bind fun _ => pure _
    | typeName type =>
      refine (expectIdent _).bind fun name => (eat _).bind fun b => .ite ?_ ?_ b
      · exact he.bind fun _ => (expect _ _).bind fun _ => (spanFrom s).bind fun _ => pure _
      · exact (expect _ _).bind fun _ => (spanFrom s).bind fun _ => pure _
    | keyPublic =>
      refine (expectTypeName _).bind fun type => (expectIdent _).bind fun name => ?_
      refine (check _).bind fun b => .ite (throw (.publicInitializer name.span name.text)) ?_ b
      exact (expect _ _).bind fun _ => (spanFrom s).bind fun _ => pure _
    | ident text =>
      refine assignOp.bind fun op => (assignValue n op).bind fun value =>
        (expect _ _).bind fun _ => ?_
      exact (spanFrom s).bind fun _ => pure _
    | qualifier text =>
      refine (callTail n he).bind fun _ => (expect _ _).bind fun _ => (spanFrom s).bind fun _ => ?_
      exact pure _
    | keyReturn =>
      refine (expect _ _).bind fun opening => (arguments he opening n).bind fun values => ?_
      exact (expect _ _).bind fun _ => (spanFrom s).bind fun _ => pure _
    | _ => exact failAt ⟨_, s⟩ _

/-! ## Programs -/

theorem parameters (n : Nat) :
    Unplaces (List.map (Parameter.map .unplaced)) (parameters n) (parameters n) := by
  induction n with
  | zero => exact failHere _
  | succ n ih =>
    simp only [Parser.parameters, discard_bind]
    refine (expectTypeName _).bind fun type => (expectIdent _).bind fun name => ?_
    refine (eat _).bind fun b => .ite (pure _) ?_ b
    exact (expect _ _).bind fun _ => ih.bind fun _ => pure _

theorem method (n : Nat) :
    Unplaces (Method.map .unplaced) (method Parser.eatExact n) (method Parser.eatExact n) := by
  simp only [Parser.method, discard_bind, pure_bind]
  refine (expectIdent _).bind fun name => (expect _ _).bind fun _ => ?_
  refine (eat _).bind fun b => .ite ?_ ((parameters n).bind fun params => ?_) b
  · exact (expect _ _).bind fun opening => (block (statement n) opening n).bind fun _ => pure _
  · exact (expect _ _).bind fun opening => (block (statement n) opening n).bind fun _ => pure _

theorem globalVar : Unplaces (Declaration.map .unplaced) globalVar globalVar := by
  simp only [Parser.globalVar, discard_bind]
  refine (expectTypeName _).bind fun type => (expectIdent _).bind fun name => ?_
  exact (expect _ _).bind fun _ => pure _

theorem items (n : Nat) :
    Unplaces (List.map (Item.map .unplaced)) (items Parser.eatExact n) (items Parser.eatExact n) := by
  induction n with
  | zero => exact pure []
  | succ n ih =>
    refine atEnd.bind fun b => .ite (pure _) ?_ b
    refine (eat _).bind fun b => .ite ?_ ((check _).bind fun b => .ite ?_ (failHere _) b) b
    · exact (method n).bind fun _ => ih.bind fun _ => pure _
    · exact globalVar.bind fun _ => ih.bind fun _ => pure _

theorem program : Unplaces (Program.map .unplaced) program program :=
  remaining.bind fun n => (items n).bind fun _ => pure _

end Unplaces

end Parser

/-! ## From tokens to programs -/

namespace Program

/-- What was read, or why it was refused, without places. -/
def unplacedReading (r : Except SourceError Program) : Except SourceError Program :=
  (r.map unplaced).mapError SourceError.unplaced

/-- The check of the methods does not look at places. -/
theorem checkEntry_unplaced (p : Program) :
    p.unplaced.checkEntry = p.checkEntry.mapError SourceError.unplaced := by
  rw [checkEntry, checkEntry, methods_map]
  have hcheck : ∀ (ms : List Method) (seen : Bool), checkMethods seen (ms.map (Method.map .unplaced)) =
      (checkMethods seen ms).mapError SourceError.unplaced := by
    intro ms
    induction ms with
    | nil => intro seen; cases seen <;> rfl
    | cons m ms ih =>
      intro seen
      by_cases hn : m.name.text = entryName
      · cases seen with
        | false => simp [checkMethods, Method.map, Name.unplaced, hn, ih]
        | true =>
          simp [checkMethods, Method.map, Name.unplaced, hn]
          rfl
      · simp [checkMethods, Method.map, Name.unplaced, hn]
        rfl
  exact hcheck p.methods false

variable {a b : String} {ts us : List Lexeme}

/-- The same tokens at other places are read as the same program at other places. -/
theorem ofTokens_of_tokens_eq (h : ts.map Lexeme.token = us.map Lexeme.token) :
    unplacedReading (ofTokens ts) = unplacedReading (ofTokens us) := by
  have hrun : Parser.unplacedOutcome unplaced (Parser.program.run (Cursor.ofTokens ts)) =
      Parser.unplacedOutcome unplaced (Parser.program.run (Cursor.ofTokens us)) := by
    rw [← Parser.Unplaces.program, ← Parser.Unplaces.program, Cursor.unplaced_ofTokens,
      Cursor.unplaced_ofTokens, h]
  rw [EStateM.run, EStateM.run] at hrun
  rw [ofTokens, ofTokens]
  generalize Parser.program (Cursor.ofTokens ts) = r at hrun ⊢
  generalize Parser.program (Cursor.ofTokens us) = r' at hrun ⊢
  rcases r with ⟨p, c⟩ | ⟨e, c⟩ <;> rcases r' with ⟨q, c'⟩ | ⟨e', c'⟩
  · injection hrun with hp
    exact congrArg Except.ok hp
  · cases hrun
  · cases hrun
  · injection hrun with he
    exact congrArg Except.error he

/-- Two texts with the same tokens are the same program at other places, or refused for the same
reason. -/
theorem parse_of_tokens_eq (ha : tokenize a = .ok ts) (hb : tokenize b = .ok us)
    (h : ts.map Lexeme.token = us.map Lexeme.token) :
    unplacedReading (parse a) = unplacedReading (parse b) := by
  have hparse : ∀ {source : String} {tokens : List Lexeme}, tokenize source = .ok tokens →
      unplacedReading (parse source) =
        (unplacedReading (ofTokens tokens)).bind fun p => p.checkEntry.map fun _ => p := by
    intro source tokens ht
    rw [parse, ht]
    rcases ho : ofTokens tokens with e | p
    · simp only [bind, Except.bind, ho]
      rfl
    · have hok : unplacedReading (.ok p) = .ok p.unplaced := rfl
      simp only [bind, Except.bind, ho, hok, p.checkEntry_unplaced]
      cases p.checkEntry <;> rfl
  rw [hparse ha, hparse hb, ofTokens_of_tokens_eq h]

end Program

end ScriptGraph
