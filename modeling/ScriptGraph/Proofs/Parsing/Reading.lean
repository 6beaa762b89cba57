import ScriptGraph.Parsing.Program

/-!
# Steps of a reader

A reader looks at the token under the cursor and either leaves it or takes it. Here every primitive
reader is given as a function of the cursor, in terms of

* `Cursor.head` — the token under the cursor, the end mark if none is left;
* `Cursor.tail` — the cursor behind that token;
* `Lexeme.refusal` — the error of a reader that needed something else.

No other module looks into a primitive reader.
-/

namespace ScriptGraph

/-- The error at a token where `expected` was needed. -/
def Lexeme.refusal (l : Lexeme) (expected : String) : SourceError :=
  if l.token = .eof then .unexpectedEnd l.span expected
  else .unexpectedToken l.span expected l.token.text

namespace Cursor

/-- The token under the cursor. -/
def head (c : Cursor) : Lexeme :=
  match c.rest with
  | [] => ⟨.eof, c.stop⟩
  | l :: _ => l

/-- The cursor behind the token under it. -/
def tail (c : Cursor) : Cursor :=
  match c.rest with
  | [] => c
  | l :: rest => { c with rest := rest, last := l.span }

@[simp] theorem head_cons (l : Lexeme) (rest : List Lexeme) (stop last : Span) :
    (⟨l :: rest, stop, last⟩ : Cursor).head = l := rfl

@[simp] theorem head_nil (stop last : Span) :
    (⟨[], stop, last⟩ : Cursor).head = ⟨.eof, stop⟩ := rfl

@[simp] theorem tail_cons (l : Lexeme) (rest : List Lexeme) (stop last : Span) :
    (⟨l :: rest, stop, last⟩ : Cursor).tail = ⟨rest, stop, l.span⟩ := rfl

@[simp] theorem tail_nil (stop last : Span) :
    (⟨[], stop, last⟩ : Cursor).tail = ⟨[], stop, last⟩ := rfl

end Cursor

namespace Parser

variable {α β : Type}

/-! ## Composition -/

theorem run_bind (x : Parser α) (f : α → Parser β) (c : Cursor) :
    (x >>= f).run c =
      match x.run c with
      | .ok a c' => (f a).run c'
      | .error e c' => .error e c' := by
  simp only [EStateM.run, bind, EStateM.bind]
  cases x c <;> rfl

@[simp] theorem run_map (g : α → β) (x : Parser α) (c : Cursor) :
    (g <$> x).run c =
      match x.run c with
      | .ok a c' => .ok (g a) c'
      | .error e c' => .error e c' := by
  simp only [EStateM.run, Functor.map, EStateM.map]
  cases x c <;> rfl

@[simp] theorem run_pure (a : α) (c : Cursor) : (pure a : Parser α).run c = .ok a c := rfl

@[simp] theorem run_throw (e : SourceError) (c : Cursor) :
    (throw e : Parser α).run c = .error e c := rfl

@[simp] theorem run_discard (x : Parser α) (c : Cursor) :
    (discard x : Parser PUnit).run c =
      match x.run c with
      | .ok _ c' => .ok ⟨⟩ c'
      | .error e c' => .error e c' := by
  simp only [EStateM.run, discard, Functor.discard, Functor.mapConst, Function.comp, EStateM.map]
  cases x c <;> rfl

/-- A reader whose result is dropped, followed by another one. -/
theorem discard_bind (x : Parser α) (f : PUnit → Parser β) :
    (discard x >>= f) = (x >>= fun _ => f ⟨⟩) := by
  funext c
  simp only [bind, EStateM.bind, discard, Functor.discard, Functor.mapConst, Function.comp,
    EStateM.map]
  cases x c <;> rfl

/-! ## Primitive readers -/

@[simp] theorem run_peek (c : Cursor) : peek.run c = .ok c.head c := by
  rcases c with ⟨_ | ⟨l, rest⟩, stop, last⟩ <;> rfl

@[simp] theorem run_advance (c : Cursor) : advance.run c = .ok c.head c.tail := by
  rcases c with ⟨_ | ⟨l, rest⟩, stop, last⟩ <;> rfl

@[simp] theorem run_remaining (c : Cursor) : remaining.run c = .ok c.rest.length c := rfl

@[simp] theorem run_atEnd (c : Cursor) : atEnd.run c = .ok (c.head.token == .eof) c := by
  simp only [atEnd, run_bind, run_peek, run_pure]

@[simp] theorem run_check (token : Token) (c : Cursor) :
    (check token).run c = .ok (c.head.token.sameKind token) c := by
  simp only [check, run_bind, run_peek, run_pure]

@[simp] theorem run_eat? (token : Token) (c : Cursor) :
    (eat? token).run c =
      if c.head.token.sameKind token then .ok (some c.head) c.tail else .ok none c := by
  simp only [eat?, run_bind, run_check]
  cases c.head.token.sameKind token <;> simp

@[simp] theorem run_eat (token : Token) (c : Cursor) :
    (eat token).run c =
      if c.head.token.sameKind token then .ok true c.tail else .ok false c := by
  simp only [eat, run_bind, run_eat?]
  cases c.head.token.sameKind token <;> rfl

@[simp] theorem run_eatExact (token : Token) (c : Cursor) :
    (eatExact token).run c =
      if c.head.token = token then .ok true c.tail else .ok false c := by
  simp only [eatExact, run_bind, run_peek, discard_bind]
  by_cases h : c.head.token = token <;> simp [h]

@[simp] theorem run_failAt (l : Lexeme) (expected : String) (c : Cursor) :
    (failAt l expected : Parser α).run c = .error (l.refusal expected) c := by
  simp only [failAt, Lexeme.refusal]
  split <;> rfl

@[simp] theorem run_failHere (expected : String) (c : Cursor) :
    (failHere expected : Parser α).run c = .error (c.head.refusal expected) c := by
  simp only [failHere, run_bind, run_peek, Lexeme.refusal]
  split <;> rfl

@[simp] theorem run_expect (token : Token) (expected : String) (c : Cursor) :
    (expect token expected).run c =
      if c.head.token.sameKind token then .ok c.head c.tail
      else .error (c.head.refusal expected) c := by
  simp only [expect, run_bind, run_eat?]
  cases c.head.token.sameKind token <;> simp

@[simp] theorem run_expectIdent (expected : String) (c : Cursor) :
    (expectIdent expected).run c =
      match c.head.token with
      | .ident text => .ok ⟨text, c.head.span⟩ c.tail
      | _ => .error (c.head.refusal expected) c := by
  simp only [expectIdent, run_bind, run_peek]
  cases c.head.token <;> simp

@[simp] theorem run_expectTypeName (expected : String) (c : Cursor) :
    (expectTypeName expected).run c =
      match c.head.token with
      | .typeName text => .ok ⟨text, c.head.span⟩ c.tail
      | _ => .error (c.head.refusal expected) c := by
  simp only [expectTypeName, run_bind, run_peek]
  cases c.head.token <;> simp

@[simp] theorem run_spanFrom (start : Span) (c : Cursor) :
    (spanFrom start).run c = .ok (start.merge c.last) c := rfl

@[simp] theorem run_numberLiteral (text : String) (span : Span) (c : Cursor) :
    (numberLiteral text span).run c =
      match Binary32.ofText? text with
      | some value => .ok (.number value) c
      | none => .error (.invalidNumber span text) c := by
  rw [numberLiteral]
  cases Binary32.ofText? text <;> rfl

end Parser

namespace Program

/-- A program is read in a run from the first token. -/
theorem run_of_ofTokens {tokens : List Lexeme} {p : Program} (h : ofTokens tokens = .ok p) :
    ∃ c, Parser.program.run (Cursor.ofTokens tokens) = .ok p c := by
  rw [ofTokens] at h
  split at h
  · next c hr =>
    cases h
    exact ⟨c, hr⟩
  · cases h

/-- Is a source scanned and read without an error? -/
def isRead (source : String) : Bool :=
  (tokenize source).toOption.any fun tokens => (ofTokens tokens).toOption.isSome

theorem run_of_isRead {source : String} (h : isRead source = true) :
    ∃ tokens p c, tokenize source = .ok tokens ∧
      Parser.program.run (Cursor.ofTokens tokens) = .ok p c := by
  rw [isRead] at h
  rcases ht : tokenize source with e | tokens <;> rw [ht] at h
  · cases h
  · rcases hp : ofTokens tokens with e | p
    · simp [hp, Except.toOption] at h
    · obtain ⟨c, hrun⟩ := run_of_ofTokens hp
      exact ⟨tokens, p, c, rfl, hrun⟩

end Program

end ScriptGraph
