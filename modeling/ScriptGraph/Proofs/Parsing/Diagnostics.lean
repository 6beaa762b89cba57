import ScriptGraph.Proofs.Parsing.Places

/-!
# What an error quotes

An error of a reader reports a token, an opening bracket, a name or a number. Here what it reports
is compared with the text of the source at the place that it names.

* `SourceError.quote?` — what an error quotes, and where;
* `Blamed row e` — the errors that can arise on the tokens of a source, each with the tokens it is
  about;
* `Tells row p P` — all errors of a reader are such errors. It holds of a sequence if it holds of
  the parts, so there is one lemma for each reader;
* `Diagnosed source e` — how the errors of a source go together with its text. All of them quote it
  but one: a number that starts with its point is quoted with a zero in front;
* `Program.quoted_of_parse` — what this says about the messages of a source.
-/

namespace ScriptGraph

/-- What an error quotes, and its place. -/
def SourceError.quote? : SourceError → Option (Span × String)
  | .unexpectedChar span c => some (span, String.singleton c)
  | .unexpectedToken span _ found => some (span, found)
  | .unexpectedEnd _ _ => none
  | .invalidNumber span text => some (span, text)
  | .unmatchedDelimiter span c => some (span, String.singleton c)
  | .publicInitializer span name => some (span, name)
  | .invalidMethod span name => some (span, name)
  | .duplicateMethod span name => some (span, name)
  | .missingEntry => none

/-- A message ends in what the error quotes and its position. -/
theorem SourceError.message_quote {e : SourceError} {span : Span} {text : String}
    (h : e.quote? = some (span, text)) :
    ∃ cause, e.message = cause ++ Text.quoted text ++ span.positionText := by
  cases e <;> cases h <;> exact ⟨_, rfl⟩

/-! ## Errors about tokens -/

/-- The tokens of a source up to its end mark. -/
structure TokenRow where
  /-- the tokens -/
  tokens : List Lexeme
  /-- the place of the end mark -/
  stop : Span
  ne_eof : ∀ l ∈ tokens, l.token ≠ .eof

variable {row : TokenRow}

/-- The errors that can arise on a row of tokens. -/
inductive Blamed (row : TokenRow) : SourceError → Prop where
  /-- a token where another was needed -/
  | token {l : Lexeme} {expected : String} (hl : l ∈ row.tokens) :
      Blamed row (.unexpectedToken l.span expected l.token.text)
  /-- the end where something was needed -/
  | atEnd {needed : String} : Blamed row (.unexpectedEnd row.stop needed)
  /-- a number token that is no number -/
  | number {l : Lexeme} {text : String} (hl : l ∈ row.tokens) (ht : l.token = .number text) :
      Blamed row (.invalidNumber l.span text)
  /-- a point and a number token behind it that are no number -/
  | fraction {point l : Lexeme} {digits : String} (hl : [point, l] <:+: row.tokens)
      (hp : point.token = .dot) (ht : l.token = .number digits) :
      Blamed row (.invalidNumber (point.span.merge l.span) ("0." ++ digits))
  /-- an opening bracket -/
  | opening {l : Lexeme} {c : Char} (hl : l ∈ row.tokens) (ht : l.token.text = String.singleton c) :
      Blamed row (.unmatchedDelimiter l.span c)
  /-- the name of a declaration -/
  | name {l : Lexeme} (hl : l ∈ row.tokens) : Blamed row (.publicInitializer l.span l.token.text)

namespace TokenRow

/-- A token that a reader can see: one of the row or the end mark. -/
def Sees (row : TokenRow) (l : Lexeme) : Prop :=
  l ∈ row.tokens ∨ l = ⟨.eof, row.stop⟩

/-- A cursor somewhere in a row. -/
structure Holds (row : TokenRow) (c : Cursor) : Prop where
  suffix : c.rest <:+ row.tokens
  stop : c.stop = row.stop

theorem Sees.mem {l : Lexeme} (h : row.Sees l) (hl : l.token ≠ .eof) : l ∈ row.tokens := by
  rcases h with h | rfl
  · exact h
  · exact absurd rfl hl

/-- The refusal of a token that a reader can see. -/
theorem Sees.refusal {l : Lexeme} (h : row.Sees l) (expected : String) :
    Blamed row (l.refusal expected) := by
  rcases h with h | rfl
  · rw [Lexeme.refusal, if_neg (row.ne_eof l h)]
    exact .token h
  · exact .atEnd

theorem Holds.head {c : Cursor} (h : row.Holds c) : row.Sees c.head := by
  rcases c with ⟨_ | ⟨l, rest⟩, stop, last⟩
  · exact .inr (by rw [← h.stop]; rfl)
  · exact .inl (h.suffix.subset List.mem_cons_self)

theorem Holds.tail {c : Cursor} (h : row.Holds c) : row.Holds c.tail := by
  rcases c with ⟨_ | ⟨l, rest⟩, stop, last⟩
  · exact h
  · exact ⟨(List.suffix_cons l rest).trans h.suffix, h.stop⟩

end TokenRow

namespace Parser

variable {α β : Type}

/-- From a cursor, a reader yields a result with `P` and stays in the row, or it blames the row. -/
def TellsAt (row : TokenRow) (c : Cursor) (p : Parser α) (P : α → Prop) : Prop :=
  match p.run c with
  | .ok a c' => row.Holds c' ∧ P a
  | .error e _ => Blamed row e

/-- A reader tells only what is in the row, wherever it starts. -/
def Tells (row : TokenRow) (p : Parser α) (P : α → Prop) : Prop :=
  ∀ c, row.Holds c → TellsAt row c p P

namespace Tells

variable {P : α → Prop} {Q : β → Prop}

/-! ## Composition -/

theorem pure {a : α} (h : P a) : Tells row (pure a) P :=
  fun _ hc => ⟨hc, h⟩

theorem throw {e : SourceError} (h : Blamed row e) : Tells row (throw e) P :=
  fun _ _ => h

theorem bind {p : Parser α} {k : α → Parser β} (h : Tells row p P)
    (hk : ∀ a, P a → Tells row (k a) Q) : Tells row (p >>= k) Q := by
  intro c hc
  have hp := h c hc
  rw [TellsAt] at hp ⊢
  rw [run_bind]
  rcases hr : p.run c with ⟨a, c'⟩ | ⟨e, c'⟩ <;> rw [hr] at hp
  · exact hk a hp.2 c' hp.1
  · exact hp

theorem ite {p q : Parser α} (h : Tells row p P) (h' : Tells row q P) (b : Bool) :
    Tells row (if b = true then p else q) P := by
  cases b with
  | true => exact h
  | false => exact h'

/-- A reader that yields something, of which nothing is known. -/
abbrev Any (row : TokenRow) (p : Parser α) : Prop :=
  Tells row p fun _ => True

/-! ## Primitive readers -/

theorem peek : Tells row peek row.Sees := by
  intro c hc
  rw [TellsAt, run_peek]
  exact ⟨hc, hc.head⟩

theorem advance : Tells row advance row.Sees := by
  intro c hc
  rw [TellsAt, run_advance]
  exact ⟨hc.tail, hc.head⟩

/-- After the token under a cursor is taken, the reader goes on behind it. -/
theorem advance_bind {k : Lexeme → Parser β}
    (h : ∀ c, row.Holds c → TellsAt row c.tail (k c.head) Q) :
    Tells row (Parser.advance >>= k) Q := by
  intro c hc
  rw [TellsAt, run_bind, run_advance]
  exact h c hc

theorem remaining : Any row remaining :=
  fun _ hc => ⟨hc, trivial⟩

theorem atEnd : Any row atEnd :=
  peek.bind fun _ _ => pure trivial

theorem check (token : Token) : Any row (check token) :=
  peek.bind fun _ _ => pure trivial

theorem spanFrom (start : Span) : Any row (spanFrom start) :=
  fun _ hc => ⟨hc, trivial⟩

/-- A token that is taken is one of the row. -/
theorem eat? {token : Token} (ht : token.isMark = true) :
    Tells row (eat? token) fun found => ∀ l ∈ found, l ∈ row.tokens ∧ l.token.flat = token := by
  intro c hc
  rw [TellsAt, run_eat?]
  by_cases h : c.head.token.sameKind token = true
  · rw [if_pos h]
    refine ⟨hc.tail, fun l hl => ?_⟩
    cases hl
    exact ⟨hc.head.mem (Token.ne_eof_of_sameKind ht h), Token.flat_of_sameKind ht h⟩
  · rw [if_neg h]
    exact ⟨hc, nofun⟩

theorem eat (token : Token) (ht : token.isMark = true) : Any row (eat token) :=
  (eat? ht).bind fun _ _ => pure trivial

theorem eatExact (token : Token) : Any row (eatExact token) := by
  refine peek.bind fun l _ => ?_
  by_cases h : l.token = token
  · rw [if_pos h, discard_bind]
    exact advance.bind fun _ _ => pure trivial
  · rw [if_neg h]
    exact pure trivial

theorem failHere (expected : String) : Tells row (failHere expected) P := by
  intro c hc
  rw [TellsAt, run_failHere]
  exact hc.head.refusal expected

theorem failAt {l : Lexeme} (hl : row.Sees l) (expected : String) :
    Tells row (failAt l expected) P := by
  intro c _
  rw [TellsAt, run_failAt]
  exact hl.refusal expected

theorem expect {token : Token} (ht : token.isMark = true) (expected : String) :
    Tells row (expect token expected) fun l => l ∈ row.tokens ∧ l.token.flat = token := by
  refine (eat? ht).bind fun found hfound => ?_
  cases found with
  | none => exact failHere expected
  | some l => exact pure (hfound l rfl)

/-- A name that is taken stands in the row. -/
theorem expectIdent (expected : String) :
    Tells row (expectIdent expected) (Name.From row.tokens) := by
  intro c hc
  rw [TellsAt, run_expectIdent]
  rcases hh : c.head.token with text | _
  all_goals first
    | exact hc.head.refusal expected
    | skip
  have hmem : c.head ∈ row.tokens := hc.head.mem (by rw [hh]; nofun)
  exact ⟨hc.tail, c.head, hmem, by rw [hh]; rfl, rfl⟩

theorem expectTypeName (expected : String) : Any row (expectTypeName expected) := by
  refine peek.bind fun l _ => ?_
  rcases l with ⟨t, s⟩
  cases t with
  | typeName text => exact advance.bind fun _ _ => pure trivial
  | _ => exact failHere expected

/-! ## Expressions -/

/-- An opening bracket can be blamed. -/
theorem blamed_opening {l : Lexeme} {token : Token} {c : Char}
    (h : l ∈ row.tokens ∧ l.token.flat = token) (hc : token.text = String.singleton c) :
    Blamed row (.unmatchedDelimiter l.span c) := by
  obtain ⟨hl, rfl⟩ := h
  have htext : l.token.flat.text = l.token.text := by cases l.token <;> rfl
  exact .opening hl (htext.symm.trans hc)

variable {opening : Lexeme}

theorem closeParen (ho : opening ∈ row.tokens ∧ opening.token.flat = .lparen 0)
    (expected : String) : Any row (closeParen Parser.eatExact opening expected) :=
  (eatExact _).bind fun b _ => .ite (pure trivial)
    (atEnd.bind fun b _ => .ite (throw (blamed_opening ho rfl)) (failHere expected) b) b

theorem chainFrom (stratum : Stratum) {operand : Parser Expr} (ho : Any row operand) (n : Nat)
    (left : Expr) : Any row (chainFrom stratum operand n left) := by
  induction n generalizing left with
  | zero => exact pure trivial
  | succ n ih =>
    refine peek.bind fun l _ => ?_
    rcases stratum l.token with _ | op
    · exact pure trivial
    · simp only [discard_bind]
      exact advance.bind fun _ _ => ho.bind fun right _ => ih (.binary op left right)

theorem strata (n : Nat) {factor : Parser Expr} (hf : Any row factor) :
    Any row (strata n factor) := by
  rw [Parser.strata]
  induction Stratum.all with
  | nil => exact hf
  | cons stratum strata ih => exact ih.bind fun left _ => chainFrom stratum ih n left

theorem arguments {expression : Parser Expr} (he : Any row expression)
    (ho : opening ∈ row.tokens ∧ opening.token.flat = .lparen 0) (n : Nat) :
    Any row (arguments Parser.eatExact expression opening n) := by
  induction n with
  | zero => exact throw (blamed_opening ho rfl)
  | succ n ih =>
    simp only [Parser.arguments, discard_bind]
    refine (eatExact _).bind fun b _ => .ite (pure trivial) ?_ b
    refine atEnd.bind fun b _ => .ite (throw (blamed_opening ho rfl)) ?_ b
    refine he.bind fun arg _ => (check _).bind fun b _ => .ite ?_ ?_ b
    · exact ih.bind fun _ _ => pure trivial
    · exact (expect rfl _).bind fun _ _ => ih.bind fun _ _ => pure trivial

theorem callTail (n : Nat) {expression : Parser Expr} (he : Any row expression) :
    Any row (callTail Parser.eatExact n expression) := by
  simp only [Parser.callTail, discard_bind]
  refine (expect rfl _).bind fun _ _ => (expectIdent _).bind fun member _ => ?_
  exact (expect rfl _).bind fun opening ho => (arguments he ho n).bind fun _ _ => pure trivial

theorem numberLiteral {text : String} {span : Span} (h : Blamed row (.invalidNumber span text)) :
    Any row (numberLiteral text span) := by
  rw [Parser.numberLiteral]
  rcases Binary32.ofText? text with _ | value
  · exact throw h
  · exact pure trivial

/-- What follows a point: the digits of a number, which are blamed together with the point. -/
theorem fractionAt {c : Cursor} (hc : row.Holds c) (hp : c.head.token = .dot) :
    TellsAt row c.tail (Parser.peek >>= fun l => match l.token with
      | .number digits => Parser.advance >>= fun last =>
        Parser.numberLiteral ("0." ++ digits) (c.head.span.merge last.span)
      | _ => Parser.failHere "digits after '.'") fun _ => True := by
  have hfail : Any row (Parser.failHere "digits after '.'" : Parser Expr) := failHere _
  rcases c with ⟨_ | ⟨point, rest⟩, stop, last⟩
  · cases hp
  rcases rest with _ | ⟨⟨t, s⟩, rest⟩
  · exact hfail _ hc.tail
  · cases t with
    | number digits =>
      have hinfix : [point, ⟨.number digits, s⟩] <:+: row.tokens :=
        (List.prefix_append _ rest).isInfix.trans hc.suffix.isInfix
      exact numberLiteral (.fraction hinfix hp rfl) _ hc.tail.tail
    | _ => exact hfail _ hc.tail

theorem factor (n : Nat) : Any row (factor Parser.eatExact n) := by
  induction n with
  | zero => exact failHere _
  | succ n ih =>
    have he := strata n ih
    refine advance_bind fun c hc => ?_
    have hsees := hc.head
    rcases hl : c.head with ⟨t, s⟩
    rw [hl] at hsees
    cases t with
    | dot =>
      have hf := fractionAt hc (by rw [hl])
      rwa [hl] at hf
    | number text => exact numberLiteral (.number (hsees.mem nofun) rfl) _ hc.tail
    | lparen d =>
      exact (he.bind fun _ _ => (closeParen ⟨hsees.mem nofun, rfl⟩ _).bind fun _ _ =>
        pure trivial) _ hc.tail
    | ident text => exact pure trivial _ hc.tail
    | minus => exact (ih.bind fun _ _ => pure trivial) _ hc.tail
    | bang => exact (ih.bind fun _ _ => pure trivial) _ hc.tail
    | keyNew =>
      exact ((expectTypeName _).bind fun type _ => (expect rfl _).bind fun opening ho =>
        (arguments he ho n).bind fun _ _ => pure trivial) _ hc.tail
    | qualifier text => exact ((callTail n he).bind fun _ _ => pure trivial) _ hc.tail
    | _ => exact failAt hsees _ _ hc.tail

theorem expression (n : Nat) : Any row (expressionWithin Parser.eatExact n) :=
  strata n (factor n)

/-! ## Statements -/

theorem block {statement : Parser Stmt} (hs : Any row statement)
    (ho : opening ∈ row.tokens ∧ opening.token.flat = .lbrace 0) (n : Nat) :
    Any row (block Parser.eatExact statement opening n) := by
  induction n with
  | zero => exact throw (blamed_opening ho rfl)
  | succ n ih =>
    refine (eatExact _).bind fun b _ => .ite (pure trivial) ?_ b
    refine atEnd.bind fun b _ => .ite (throw (blamed_opening ho rfl)) ?_ b
    exact hs.bind fun _ _ => ih.bind fun _ _ => pure trivial

theorem branchBody (n : Nat) {statement : Parser Stmt} (hs : Any row statement) :
    Any row (branchBody Parser.eatExact n statement) := by
  refine (eat? rfl).bind fun found hfound => ?_
  cases found with
  | none => exact hs.bind fun _ _ => pure trivial
  | some opening => exact block hs (hfound opening rfl) n

theorem assignOp : Any row assignOp := by
  simp only [Parser.assignOp, discard_bind]
  have hop (expected : String) (op : AssignOp) :
      Any row (Parser.expect .assign expected >>= fun _ => Pure.pure op) :=
    (expect rfl expected).bind fun _ _ => pure trivial
  refine (eat _ rfl).bind fun b _ =>
    .ite ((eat _ rfl).bind fun b _ => .ite (pure trivial) (hop _ _) b) ?_ b
  refine (eat _ rfl).bind fun b _ =>
    .ite ((eat _ rfl).bind fun b _ => .ite (pure trivial) (hop _ _) b) ?_ b
  refine (eat _ rfl).bind fun b _ =>
    .ite (hop _ _) ((eat _ rfl).bind fun b _ => .ite (hop _ _) ?_ b) b
  exact (eat _ rfl).bind fun b _ => .ite (hop _ _) (hop _ _) b

theorem assignValue (n : Nat) (op : AssignOp) : Any row (assignValue Parser.eatExact n op) := by
  cases op with
  | increment => exact pure trivial
  | decrement => exact pure trivial
  | _ => exact expression n

theorem statement (n : Nat) : Any row (statementWithin Parser.eatExact n) := by
  induction n with
  | zero => exact failHere _
  | succ n ih =>
    have he : Any row (expressionWithin Parser.eatExact n) := expression n
    have hend {s : Span} {k : Span → Stmt} :
        Any row (Parser.spanFrom s >>= fun span => Pure.pure (k span)) :=
      (spanFrom s).bind fun _ _ => pure trivial
    simp only [statementWithin, discard_bind, bind_map_left, pure_bind]
    refine advance.bind fun l hl => ?_
    rcases l with ⟨t, s⟩
    cases t with
    | keyIf =>
      refine (expect rfl _).bind fun opening ho => he.bind fun test _ =>
        (closeParen ho _).bind fun _ _ => ?_
      refine (branchBody n ih).bind fun thenBody _ => (eat _ rfl).bind fun b _ => .ite ?_ hend b
      exact (branchBody n ih).bind fun _ _ => hend
    | typeName type =>
      refine (expectIdent _).bind fun name _ => (eat _ rfl).bind fun b _ => .ite ?_ ?_ b
      · exact he.bind fun _ _ => (expect rfl _).bind fun _ _ => hend
      · exact (expect rfl _).bind fun _ _ => hend
    | keyPublic =>
      refine (expectTypeName _).bind fun type _ => (expectIdent _).bind fun name hname => ?_
      obtain ⟨l, hl, ht, hs⟩ := hname
      have hblamed : Blamed row (.publicInitializer name.span name.text) := ht ▸ hs ▸ .name hl
      refine (check _).bind fun b _ => .ite (throw hblamed) ?_ b
      exact (expect rfl _).bind fun _ _ => hend
    | ident text =>
      refine assignOp.bind fun op _ => (assignValue n op).bind fun value _ => ?_
      exact (expect rfl _).bind fun _ _ => hend
    | qualifier text => exact (callTail n he).bind fun _ _ => (expect rfl _).bind fun _ _ => hend
    | keyReturn =>
      refine (expect rfl _).bind fun opening ho => (arguments he ho n).bind fun values _ => ?_
      exact (expect rfl _).bind fun _ _ => hend
    | _ => exact failAt hl _

/-! ## Programs -/

theorem parameters (n : Nat) : Any row (parameters n) := by
  induction n with
  | zero => exact failHere _
  | succ n ih =>
    simp only [Parser.parameters, discard_bind]
    refine (expectTypeName _).bind fun type _ => (expectIdent _).bind fun name _ => ?_
    refine (eat _ rfl).bind fun b _ => .ite (pure trivial) ?_ b
    exact (expect rfl _).bind fun _ _ => ih.bind fun _ _ => pure trivial

theorem method (n : Nat) : Any row (method Parser.eatExact n) := by
  have hbody {k : List Stmt → Method} : Any row
      (Parser.expect (.lbrace 0) "'\x7b' to begin method" >>= fun opening =>
        Parser.block Parser.eatExact (statementWithin Parser.eatExact n) opening n >>= fun body =>
          Pure.pure (k body)) :=
    (expect rfl _).bind fun opening ho => (block (statement n) ho n).bind fun _ _ => pure trivial
  simp only [Parser.method, discard_bind, pure_bind]
  refine (expectIdent _).bind fun name _ => (expect rfl _).bind fun _ _ => ?_
  exact (eat _ rfl).bind fun b _ => .ite hbody ((parameters n).bind fun params _ => hbody) b

theorem globalVar : Any row globalVar := by
  simp only [Parser.globalVar, discard_bind]
  refine (expectTypeName _).bind fun type _ => (expectIdent _).bind fun name _ => ?_
  exact (expect rfl _).bind fun _ _ => pure trivial

theorem items (n : Nat) : Any row (items Parser.eatExact n) := by
  induction n with
  | zero => exact pure trivial
  | succ n ih =>
    refine atEnd.bind fun b _ => .ite (pure trivial) ?_ b
    refine (eat _ rfl).bind fun b _ => .ite ?_ ((check _).bind fun b _ => .ite ?_ (failHere _) b) b
    · exact (method n).bind fun _ _ => ih.bind fun _ _ => pure trivial
    · exact globalVar.bind fun _ _ => ih.bind fun _ _ => pure trivial

theorem program : Any row program :=
  remaining.bind fun n _ => (items n).bind fun _ _ => pure trivial

end Tells

end Parser

/-! ## Errors about a text -/

/-- Is an error about a number that starts with its point? -/
def SourceError.isFraction (source : String) : SourceError → Bool
  | .invalidNumber span _ => (charsFrom source span.start).head? == some '.'
  | _ => false

/-- How an error goes together with the text that it is about. -/
inductive Diagnosed (source : String) : SourceError → Prop where
  /-- it quotes what stands at its place -/
  | quoted {e : SourceError} {span : Span} {text : String} (he : e.quote? = some (span, text))
      (hc : span.Cuts source) (ht : span.slice source = text) (hf : e.isFraction source = false) :
      Diagnosed source e
  /-- it quotes a number that starts with its point, without the white space behind the point and
  with a zero in front -/
  | fraction {span : Span} {gap digits : String} (hc : span.Cuts source)
      (hs : span.slice source = "." ++ gap ++ digits)
      (hg : ∀ c ∈ gap.toList, Text.isWhiteSpace c = true) (hd : isNumeral digits.toList = true) :
      Diagnosed source (.invalidNumber span ("0." ++ digits))
  /-- it is about the end -/
  | atEnd {needed : String} :
      Diagnosed source (.unexpectedEnd ⟨source.utf8ByteSize, source.utf8ByteSize⟩ needed)
  /-- it is about the program as a whole -/
  | missingEntry : Diagnosed source .missingEntry

variable {source : String}

/-- A name of a method is quoted as it is written. -/
theorem Diagnosed.of_name {n : Name} (h : n.Stands source) :
    Diagnosed source (.invalidMethod n.span n.text) ∧
      Diagnosed source (.duplicateMethod n.span n.text) :=
  ⟨.quoted rfl h.cuts h.text rfl, .quoted rfl h.cuts h.text rfl⟩

/-- A number token does not start with a point. -/
theorem Lexeme.Munched.isFraction {l : Lexeme} {text : String} (h : l.Munched source)
    (ht : l.token = .number text) :
    (SourceError.invalidNumber l.span text).isFraction source = false := by
  have hspelled := h.spelled
  have htext := h.text
  rw [ht] at hspelled htext
  rw [SourceError.isFraction, h.cuts.charsFrom_eq, htext, Token.text]
  rw [Token.isSpelled] at hspelled
  rcases hc : text.toList with _ | ⟨c, cs⟩ <;> rw [hc] at hspelled
  · cases hspelled
  · have hdigit : c.isDigit = true := (Bool.and_eq_true_iff.mp hspelled).1
    refine beq_false_of_ne fun h => ?_
    cases h
    cases hdigit

/-- An error about the tokens of a text goes together with the text. -/
theorem Blamed.diagnosed {row : TokenRow} {e : SourceError} (h : Blamed row e)
    (hs : Segmented source 0 (row.tokens.map .ok))
    (hstop : row.stop = ⟨source.utf8ByteSize, source.utf8ByteSize⟩) : Diagnosed source e := by
  cases h with
  | token hl => exact .quoted rfl (hs.munched _ hl).cuts (hs.munched _ hl).text rfl
  | atEnd => exact hstop ▸ .atEnd
  | number hl ht =>
    have hm := hs.munched _ hl
    exact .quoted rfl hm.cuts (by rw [hm.text, ht]; rfl) (hm.isFraction ht)
  | @fraction point l digits hl hp ht =>
    have hpoint := hs.munched point (hl.subset (by simp))
    have hdigits := hs.munched l (hl.subset (by simp))
    obtain ⟨hle, hblank⟩ := hs.blank_between hl
    have hlt := hpoint.cuts.lt
    have hlt' := hdigits.cuts.lt
    have hmerge : point.span.merge l.span = ⟨point.span.start, l.span.stop⟩ := by
      rw [Span.merge, Nat.min_eq_left (by omega), Nat.max_eq_right (by omega)]
    refine .fraction (hpoint.cuts.merge hdigits.cuts) ?_ hblank ?_
    · have hpointText := hpoint.text
      have hdigitsText := hdigits.text
      rw [hp] at hpointText
      rw [ht] at hdigitsText
      rw [hmerge,
        Span.slice_append hpoint.cuts.start hdigits.cuts.start hdigits.cuts.stop (by omega)
          (by omega),
        Span.slice_append hpoint.cuts.start hpoint.cuts.stop hdigits.cuts.start (by omega) hle]
      exact congr (congrArg _ (congr (congrArg _ hpointText) rfl)) hdigitsText
    · have hspelled := hdigits.spelled
      rwa [ht] at hspelled
  | opening hl ht => exact .quoted rfl (hs.munched _ hl).cuts ((hs.munched _ hl).text.trans ht) rfl
  | name hl => exact .quoted rfl (hs.munched _ hl).cuts (hs.munched _ hl).text rfl

namespace Program

/-- The check of the methods names one of them, or it misses the entry. -/
theorem checkMethods_error {seen : Bool} {ms : List Method} {e : SourceError}
    (h : checkMethods seen ms = .error e) :
    e = .missingEntry ∨ ∃ m ∈ ms, e = .invalidMethod m.name.span m.name.text ∨
      e = .duplicateMethod m.name.span m.name.text := by
  induction ms generalizing seen with
  | nil =>
    cases seen with
    | true => cases h
    | false => exact .inl (Except.error.inj h).symm
  | cons m ms ih =>
    rw [checkMethods] at h
    split at h
    · exact .inr ⟨m, List.mem_cons_self, .inl (Except.error.inj h).symm⟩
    split at h
    · exact .inr ⟨m, List.mem_cons_self, .inr (Except.error.inj h).symm⟩
    · rcases ih h with he | ⟨m', hm', he⟩
      · exact .inl he
      · exact .inr ⟨m', List.mem_cons_of_mem _ hm', he⟩

/-- The tokens of a source are refused for a reason that goes together with the source. -/
theorem diagnosed_of_ofTokens {tokens : List Lexeme} {e : SourceError}
    (ht : tokenize source = .ok tokens) (ho : ofTokens tokens = .error e) : Diagnosed source e := by
  obtain ⟨ts, rfl, hs⟩ := tokenize_segmented ht
  have hne := hs.ne_eof
  let row : TokenRow := ⟨ts, ⟨source.utf8ByteSize, source.utf8ByteSize⟩, hne⟩
  have hfind : ts.find? (fun l => l.token == .eof) = none :=
    List.find?_eq_none.mpr fun l hl => by simpa using hne l hl
  have hholds : row.Holds (Cursor.ofTokens (ts ++ [⟨.eof, row.stop⟩])) := by
    refine ⟨⟨[], Cursor.rest_ofTokens_append hne rfl⟩, ?_⟩
    simp [Cursor.ofTokens, List.find?_append, hfind]
  have htells := Parser.Tells.program _ hholds
  rw [Parser.TellsAt] at htells
  rw [ofTokens] at ho
  split at ho
  · cases ho
  · next hr =>
    cases ho
    rw [EStateM.run, hr] at htells
    exact htells.diagnosed hs rfl

/-- Every error of a source goes together with the source. -/
theorem diagnosed_of_parse {e : SourceError} (h : parse source = .error e) :
    Diagnosed source e := by
  rw [parse] at h
  rcases ht : tokenize source with e' | tokens
  · rw [ht] at h
    cases h
    obtain ⟨span, c, rfl, hc⟩ := refused_of_tokenize ht
    exact .quoted rfl hc.cuts hc.text rfl
  rcases ho : ofTokens tokens with e' | p
  · simp only [ht, ho, bind, Except.bind] at h
    cases h
    exact diagnosed_of_ofTokens ht ho
  · rcases hc : p.checkEntry with e' | _
    · simp only [ht, ho, hc, bind, Except.bind] at h
      cases h
      obtain ⟨w, hw, hd⟩ := derived_of_ofTokens ht ho
      rcases checkMethods_error hc with rfl | ⟨m, hm, he⟩
      · exact .missingEntry
      · have hname := (hd.methods m hm).1.stands hw
        rcases he with rfl | rfl
        · exact (Diagnosed.of_name hname).1
        · exact (Diagnosed.of_name hname).2
    · simp only [ht, ho, hc, bind, Except.bind] at h
      cases h

/-- **What an error quotes.** An error at the end of a source has the place behind its last byte.
The message of any other error with a place ends in a text in quotes and the position of its place.
This text is what the source has at that position if and only if the error is not about a number
that starts with its point: then it is all that stands at the place. A number that starts with its
point is quoted with a zero that the source does not have, and without the white space behind the
point. -/
theorem quoted_of_parse {e : SourceError} (h : parse source = .error e) :
    (∀ span needed, e = .unexpectedEnd span needed →
      span = ⟨source.utf8ByteSize, source.utf8ByteSize⟩) ∧
    ∀ span text, e.quote? = some (span, text) →
      span.Cuts source ∧
      (∃ cause, e.message = cause ++ Text.quoted text ++ span.positionText) ∧
      (text.toList <+: charsFrom source span.start ↔ e.isFraction source = false) ∧
      (e.isFraction source = false → span.slice source = text) ∧
      (e.isFraction source = true → ∃ gap digits, span.slice source = "." ++ gap ++ digits ∧
        text = "0." ++ digits ∧ (∀ c ∈ gap.toList, Text.isWhiteSpace c = true) ∧
        isNumeral digits.toList = true) := by
  refine ⟨?_, fun span text hq => ?_⟩
  · rintro span needed rfl
    cases diagnosed_of_parse h with
    | quoted he => cases he
    | atEnd => rfl
  have hmessage := SourceError.message_quote hq
  cases diagnosed_of_parse h with
  | quoted he hc ht hf =>
    cases hq.symm.trans he
    refine ⟨hc, hmessage, ⟨fun _ => hf, fun _ => ?_⟩, fun _ => ht, fun hf' => ?_⟩
    · rw [hc.charsFrom_eq, ht]
      exact List.prefix_append _ _
    · rw [hf] at hf'
      cases hf'
  | @fraction span gap digits hc hs hg hd =>
    cases hq
    have hchars : ∃ cs, charsFrom source span.start = '.' :: cs :=
      ⟨_, by rw [hc.charsFrom_eq, hs, String.append_assoc, String.toList_append]; rfl⟩
    obtain ⟨cs, hchars⟩ := hchars
    have hf : (SourceError.invalidNumber span ("0." ++ digits)).isFraction source = true := by
      rw [SourceError.isFraction, hchars]
      rfl
    refine ⟨hc, hmessage, ⟨fun hprefix => ?_, fun hf' => ?_⟩, fun hf' => ?_,
      fun _ => ⟨gap, digits, hs, rfl, hg, hd⟩⟩
    · rw [hchars, String.toList_append] at hprefix
      exact absurd (List.cons_prefix_cons.mp hprefix).1 (by decide)
    all_goals
      rw [hf] at hf'
      cases hf'
  | atEnd => cases hq
  | missingEntry => cases hq

/-- The error for which a source is refused. -/
def parseError? (source : String) : Option SourceError :=
  match parse source with
  | .ok _ => none
  | .error e => some e

theorem parse_of_parseError? {e : SourceError} (h : parseError? source = some e) :
    parse source = .error e := by
  rw [parseError?] at h
  split at h
  · cases h
  · next hp =>
    cases h
    exact hp

/-- A parenthesis that nothing closes, behind a space of three bytes. -/
def openParen : String :=
  "def Main()\u2003\x7b x = (1; \x7d"

theorem quoted_of_parse_openParen :
    ∃ e, parse openParen = .error e ∧ e.quote? = some (⟨21, 22⟩, ";") ∧
      Span.slice openParen ⟨21, 22⟩ = ";" ∧
      ∃ cause, e.message = cause ++ "';' at position 21" := by
  have h : parse openParen = .error (.unexpectedToken ⟨21, 22⟩ "')' after expression" ";") :=
    parse_of_parseError? (by decide +kernel)
  obtain ⟨-, ⟨cause, hm⟩, -, hs, -⟩ := (quoted_of_parse h).2 ⟨21, 22⟩ ";" rfl
  exact ⟨_, h, rfl, hs rfl, cause, hm.trans String.append_assoc⟩

/-- A number that starts with its point and ends in an exponent without digits. -/
def badFraction : String :=
  "def Main() \x7b return(.5e); \x7d"

/-- The source has no zero at the place of this error. -/
theorem badFraction_misquoted :
    ∃ span text, parse badFraction = .error (.invalidNumber span text) ∧
      span.slice badFraction = ".5e" ∧ text = "0.5e" ∧
      ¬ text.toList <+: charsFrom badFraction span.start := by
  have h : parseError? badFraction = some (.invalidNumber ⟨20, 23⟩ "0.5e") := by decide +kernel
  refine ⟨⟨20, 23⟩, "0.5e", parse_of_parseError? h, ?_, rfl, ?_⟩
  · decide +kernel
  · decide +kernel

end Program

end ScriptGraph
