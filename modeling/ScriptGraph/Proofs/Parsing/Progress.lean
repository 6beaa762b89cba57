import Mathlib.Data.List.Forall2
import ScriptGraph.Proofs.Parsing.Soundness
import ScriptGraph.Proofs.Parsing.Tape

/-!
# Readers come to an end

A reader of a tape has nothing that bounds it and nothing that keeps it on the tape. Still it does
what the bounded reader of a cursor does:

* `Tape.Shows t i c` — the cursor `c` stands at the index `i` of the tape `t`;
* `Tape.Mirrors` — a reader of a tape and a reader of a cursor have the same outcome, neither goes
  back or past the next end mark, and a success takes so many tokens at least. It holds of a
  sequence if it holds of the parts, so there is one lemma for each reader;
* `Tape.session_advances` — hence a sequence of calls comes to an end on every tape.

The loops of a reader end because each round takes a token or fails. So the induction is on the
tokens before the next end mark, which are also what bounds the readers of cursors.
-/

namespace ScriptGraph

namespace Tape

variable {α β : Type}

/-! ## Cursors on a tape -/

/-- A cursor stands at an index of a tape: what it has left are the tokens from there to the next
end mark. -/
structure Shows (t : Tape) (i : Head) (c : Cursor) : Prop where
  /-- the tokens left, and the end mark -/
  rest : ∃ mark behind, t.lexemes.drop i.index = c.rest ++ mark :: behind ∧ mark.token = .eof ∧
    mark.span = c.stop
  /-- no end mark comes before that -/
  ne_eof : ∀ l ∈ c.rest, l.token ≠ .eof
  /-- the token read last, if there is one, is the one before the index -/
  last : 0 < i.index → t.lexemes[i.index - 1]?.map Lexeme.span = some c.last

/-- A reader has gone on from one place to another. -/
structure Forward (t : Tape) (i : Head) (c : Cursor) (j : Head) (c' : Cursor) : Prop where
  shows : t.Shows j c'
  le : i.index ≤ j.index
  /-- the next end mark is the same -/
  same : j.index + c'.rest.length = i.index + c.rest.length
  /-- it went by one index at a time -/
  trail : j.trail = (List.range' i.index (j.index - i.index)).reverse ++ i.trail

variable {t : Tape} {i j j' : Head} {k n s : Nat} {c c' c'' : Cursor}

theorem Shows.head (h : t.Shows i c) : t.lexemes[i.index]? = some c.head := by
  obtain ⟨mark, behind, hd, hm, hs⟩ := h.rest
  rw [← List.head?_drop, hd]
  rcases c with ⟨_ | ⟨l, rest⟩, stop, last⟩
  · rcases mark with ⟨token, span⟩
    obtain rfl : token = .eof := hm
    obtain rfl : span = stop := hs
    rfl
  · rfl

/-- Only at an end mark nothing is left. -/
theorem Shows.rest_eq_nil (h : t.Shows i c) (he : c.head.token = .eof) : c.rest = [] :=
  Cursor.Within.rest_eq_nil ⟨Nat.le_refl _, h.ne_eof⟩ he

/-- Where nothing is left, there is an end mark. -/
theorem head_eof (hc : c.rest.length ≤ 0) : c.head.token = .eof := by
  rw [Cursor.head, List.length_eq_zero_iff.mp (Nat.le_zero.mp hc)]

theorem Shows.endsAt (h : t.Shows i c) (he : c.head.token = .eof) : t.EndsAt i.index :=
  ⟨c.head, h.head, he⟩

/-- The next end mark is behind the tokens left, and none is before it. -/
theorem Shows.le_of_endsAt (h : t.Shows i c) {e : Nat} (hi : i.index ≤ e)
    (he : t.EndsAt e) : i.index + c.rest.length ≤ e := by
  obtain ⟨mark, behind, hd, -, -⟩ := h.rest
  obtain ⟨l, hl, hle⟩ := he
  refine Nat.not_lt.mp fun hlt => ?_
  have hget : (t.lexemes.drop i.index)[e - i.index]? = some l := by
    rw [List.getElem?_drop, Nat.add_sub_cancel' hi, hl]
  rw [hd, List.getElem?_append_left (by omega)] at hget
  exact h.ne_eof l (List.mem_of_getElem? hget) hle

/-- The cursor goes on over a token. -/
theorem Shows.tail (h : t.Shows i c) (he : c.head.token ≠ .eof) :
    t.Forward i c i.next c.tail := by
  obtain ⟨mark, behind, hd, hm⟩ := h.rest
  have hhead := h.head
  rcases c with ⟨_ | ⟨l, rest⟩, stop, last⟩
  · exact absurd rfl he
  · refine ⟨⟨⟨mark, behind, ?_, hm⟩, fun l' hl' => h.ne_eof l' (List.mem_cons_of_mem _ hl'),
      fun _ => ?_⟩, Nat.le_succ _, ?_, ?_⟩
    · rw [Head.index_next, ← List.tail_drop, hd]
      rfl
    · rw [Head.index_next, Nat.add_sub_cancel, hhead]
      rfl
    · simp only [Cursor.tail_cons, List.length_cons, Head.index_next]
      omega
    · rw [Head.index_next, Nat.add_sub_cancel_left]
      rfl

theorem Shows.length_tail (h : t.Shows i c) (he : c.head.token ≠ .eof) :
    c.tail.rest.length + 1 = c.rest.length := by
  have hsame := (h.tail he).same
  rw [Head.index_next] at hsame
  omega

/-! ### What the tape shows -/

theorem Shows.runAt_peek (h : t.Shows i c) : t.peek.runAt i = some (.ok c.head, i) := by
  simp [Tape.peek, lexemeAt, TapeReader.runAt_bind, h.head]

theorem Shows.runAt_peek_bind (h : t.Shows i c) (f : Lexeme → TapeReader β) :
    (t.peek >>= f).runAt i = (f c.head).runAt i := by
  rw [TapeReader.runAt_bind, h.runAt_peek]

theorem Shows.runAt_atEnd (h : t.Shows i c) :
    t.atEnd.runAt i = some (.ok (c.head.token == .eof), i) := by
  rw [Tape.atEnd, h.runAt_peek_bind, TapeReader.runAt_pure]

theorem Shows.runAt_advance (h : t.Shows i c) :
    t.advance.runAt i = some (.ok c.head, if c.head.token = .eof then i else i.next) := by
  by_cases he : c.head.token = .eof <;>
    simp [Tape.advance, TapeReader.runAt_bind, h.runAt_peek, h.runAt_atEnd, he]

/-- A bracket is not found at an end mark. -/
theorem Shows.runAt_eatExact_eof (h : t.Shows i c) (he : c.head.token = .eof) {token : Token}
    (ht : token ≠ .eof) : (t.eatExact token).runAt i = some (.ok false, i) := by
  simp [Tape.eatExact, TapeReader.runAt_bind, h.runAt_peek, he, ht.symm]

/-- A look at a token that is then taken shows that token. -/
theorem Shows.runAt_peek_advance (h : t.Shows i c) (f : Lexeme → Lexeme → TapeReader β) :
    (t.peek >>= fun first => t.advance >>= f first).runAt i =
      (t.advance >>= fun l => f l l).runAt i := by
  rw [h.runAt_peek_bind, TapeReader.runAt_bind, TapeReader.runAt_bind, h.runAt_advance]

theorem Forward.refl (h : t.Shows i c) : t.Forward i c i c :=
  ⟨h, Nat.le_refl _, rfl, by simp⟩

theorem Forward.trans (h : t.Forward i c j c') (h' : t.Forward j c' j' c'') :
    t.Forward i c j' c'' := by
  refine ⟨h'.shows, Nat.le_trans h.le h'.le, h'.same.trans h.same, ?_⟩
  have hle := h.le
  have hle' := h'.le
  rw [h'.trail, h.trail, ← List.append_assoc, ← List.reverse_append]
  have hrange : List.range' i.index (j.index - i.index) ++
      List.range' j.index (j'.index - j.index) =
        List.range' i.index (j.index - i.index + (j'.index - j.index)) := by
    rw [← List.range'_append_1, Nat.add_sub_cancel' hle]
  rw [hrange, ← Nat.sub_add_comm hle, Nat.add_sub_cancel' hle']

/-! ## Equal outcomes -/

/-- Outcomes of a reader of a tape and of a reader of a cursor, both from one place on, are the
same. A success has taken `k` tokens at least. -/
inductive Agrees (t : Tape) (i : Head) (c : Cursor) (k : Nat) :
    Option (Except Halt α × Head) → EStateM.Result SourceError Cursor α → Prop where
  | ok {a : α} {j : Head} {c' : Cursor} (h : t.Forward i c j c') (hk : i.index + k ≤ j.index) :
      Agrees t i c k (some (.ok a, j)) (.ok a c')
  | error {e : SourceError} {j : Head} {c' : Cursor} (h : t.Forward i c j c') :
      Agrees t i c k (some (.error (.refusal e), j)) (.error e c')

/-- The readers have the same outcome from one place on. -/
def MirrorsAt (t : Tape) (i : Head) (c : Cursor) (k : Nat) (x : TapeReader α) (p : Parser α) :
    Prop :=
  t.Agrees i c k (x.runAt i) (p.run c)

/-- The readers have the same outcome from every place at or behind the index `s` with at most `n`
tokens before the next end mark. -/
def Mirrors (t : Tape) (s n k : Nat) (x : TapeReader α) (p : Parser α) : Prop :=
  ∀ i c, s ≤ i.index → t.Shows i c → c.rest.length ≤ n → t.MirrorsAt i c k x p

theorem Agrees.mono {o : Option (Except Halt α × Head)} {r : EStateM.Result SourceError Cursor α}
    {m : Nat} (h : t.Agrees i c k o r) (hm : m ≤ k) : t.Agrees i c m o r := by
  cases h with
  | ok h hk => exact .ok h (by omega)
  | error h => exact .error h

theorem Agrees.of_ok {o : Option (Except Halt α × Head)} {a : α} (h : t.Agrees i c k o (.ok a c')) :
    ∃ j, o = some (.ok a, j) ∧ t.Forward i c j c' ∧ i.index + k ≤ j.index := by
  cases h with
  | ok h hk => exact ⟨_, rfl, h, hk⟩

theorem Agrees.of_error {o : Option (Except Halt α × Head)} {e : SourceError}
    (h : t.Agrees i c k o (.error e c')) :
    ∃ j, o = some (.error (.refusal e), j) ∧ t.Forward i c j c' := by
  cases h with
  | error h => exact ⟨_, rfl, h⟩

/-- What is done after some tokens were taken is seen from before them. -/
theorem Agrees.after {m : Nat} {o : Option (Except Halt α × Head)}
    {r : EStateM.Result SourceError Cursor α} (hf : t.Forward i c j c') (hk : i.index + k ≤ j.index)
    (h : t.Agrees j c' m o r) : t.Agrees i c (k + m) o r := by
  cases h with
  | ok h hm => exact .ok (hf.trans h) (by omega)
  | error h => exact .error (hf.trans h)

namespace MirrorsAt

variable {m : Nat} {x : TapeReader α} {p : Parser α}

/-- The second parts of two sequences may start wherever the first parts can stop. -/
theorem bind {f : α → TapeReader β} {g : α → Parser β} (h : t.MirrorsAt i c k x p)
    (hf : ∀ a j c', t.Forward i c j c' → i.index + k ≤ j.index → t.MirrorsAt j c' m (f a) (g a)) :
    t.MirrorsAt i c (k + m) (x >>= f) (p >>= g) := by
  rw [MirrorsAt, TapeReader.runAt_bind, Parser.run_bind]
  rw [MirrorsAt] at h
  generalize x.runAt i = o at h
  generalize p.run c = r at h
  cases h with
  | error h => exact .error h
  | ok h hk => exact .after h hk (hf _ _ _ h hk)

/-- A token that is no end mark is taken, and the reader goes on behind it. -/
theorem advance_bind {f : Lexeme → TapeReader β} {g : Lexeme → Parser β} (hc : t.Shows i c)
    (he : c.head.token ≠ .eof) (h : t.MirrorsAt i.next c.tail m (f c.head) (g c.head)) :
    t.MirrorsAt i c (1 + m) (t.advance >>= f) (Parser.advance >>= g) := by
  rw [MirrorsAt, TapeReader.runAt_bind, Parser.run_bind, hc.runAt_advance, Parser.run_advance,
    if_neg he]
  exact .after (hc.tail he) (Nat.le_refl _) h

theorem advance_pure (g : Lexeme → β) (hc : t.Shows i c) (he : c.head.token ≠ .eof) :
    t.MirrorsAt i c 1 (t.advance >>= fun l => pure (g l))
      (Parser.advance >>= fun l => pure (g l)) := by
  refine advance_bind (m := 0) hc he ?_
  exact .ok (.refl (hc.tail he).shows) (Nat.le_refl _)

/-- An end mark is looked at and left. -/
theorem advance_bind_eof {f : Lexeme → TapeReader β} {g : Lexeme → Parser β} (hc : t.Shows i c)
    (he : c.head.token = .eof) (h : t.MirrorsAt i c k (f c.head) (g c.head)) :
    t.MirrorsAt i c k (t.advance >>= f) (Parser.advance >>= g) := by
  have htail : c.tail = c := by
    rcases c with ⟨_ | ⟨l, rest⟩, stop, last⟩
    · rfl
    · exact absurd (hc.rest_eq_nil he) (List.cons_ne_nil _ _)
  rw [MirrorsAt, TapeReader.runAt_bind, Parser.run_bind, hc.runAt_advance, Parser.run_advance,
    if_pos he, htail]
  exact h

/-- A token is needed at an end mark. -/
theorem advance_fail {f : Lexeme → TapeReader β} {expected : String} (hc : t.Shows i c)
    (he : c.head.token = .eof) (hf : f c.head = Tape.failAt c.head expected) :
    t.MirrorsAt i c k (t.advance >>= f) (Parser.failHere expected) := by
  rw [MirrorsAt, TapeReader.runAt_bind, hc.runAt_advance, if_pos he, Parser.run_failHere]
  simp only [hf]
  exact .error (.refl hc)

/-- A bracket that is still open at an end mark is refused. -/
theorem unclosed (hc : t.Shows i c) (he : c.head.token = .eof) {token : Token} (ht : token ≠ .eof)
    {x y : TapeReader α} (e : SourceError) :
    t.MirrorsAt i c k (do
        if ← t.eatExact token then x else if ← t.atEnd then refuse e else y)
      (throw e) := by
  simp only [MirrorsAt, TapeReader.runAt_bind, hc.runAt_eatExact_eof he ht, hc.runAt_atEnd, he,
    Bool.false_eq_true, if_false, beq_self_eq_true, if_true]
  exact .error (.refl hc)

end MirrorsAt

namespace Mirrors

variable {x y : TapeReader α} {p q : Parser α} {f : α → TapeReader β} {g : α → Parser β}

/-! ## Composition -/

theorem mono {s' n' k' : Nat} (h : t.Mirrors s n k x p) (hs : s ≤ s') (hn : n' ≤ n) (hk : k' ≤ k) :
    t.Mirrors s' n' k' x p :=
  fun i c hi hc hl => (h i c (Nat.le_trans hs hi) hc (Nat.le_trans hl hn)).mono hk

/-- How many tokens a success takes need not be known. -/
theorem loose (h : t.Mirrors s n k x p) : t.Mirrors s n 0 x p :=
  h.mono (Nat.le_refl s) (Nat.le_refl n) (Nat.zero_le k)

theorem pure (a : α) : t.Mirrors s n 0 (pure a) (pure a) :=
  fun _ _ _ hc _ => .ok (.refl hc) (Nat.le_refl _)

theorem refuse (e : SourceError) : t.Mirrors s n k (refuse e) (throw e : Parser α) :=
  fun _ _ _ hc _ => .error (.refl hc)

/-- The first part takes what the sequence takes. -/
theorem bind (h : t.Mirrors s n k x p) (hf : ∀ a, t.Mirrors s n 0 (f a) (g a)) :
    t.Mirrors s n k (x >>= f) (p >>= g) := by
  intro i c hi hc hl
  refine (h i c hi hc hl).bind (m := 0) fun a j c' hj _ => hf a j c' ?_ hj.shows ?_
  · exact Nat.le_trans hi hj.le
  · have := hj.le
    have := hj.same
    omega

/-- The first part takes a token, so that one less is left to the second part. -/
theorem take (h : t.Mirrors s (n + 1) 1 x p) (hf : ∀ a, t.Mirrors (s + 1) n 0 (f a) (g a)) :
    t.Mirrors s (n + 1) 1 (x >>= f) (p >>= g) := by
  intro i c hi hc hl
  refine (h i c hi hc hl).bind (m := 0) fun a j c' hj hk => hf a j c' ?_ hj.shows ?_
  · omega
  · have := hj.same
    omega

theorem ite (h : t.Mirrors s n k x p) (h' : t.Mirrors s n k y q) (b : Bool) :
    t.Mirrors s n k (if b = true then x else y) (if b = true then p else q) := by
  cases b with
  | true => exact h
  | false => exact h'

/-! ## Single tokens -/

/-- What comes after a look at the next token may depend on the place. -/
theorem peek_bind {f : Lexeme → TapeReader β} {g : Lexeme → Parser β}
    (h : ∀ i c, s ≤ i.index → t.Shows i c → c.rest.length ≤ n →
      t.MirrorsAt i c k (f c.head) (g c.head)) :
    t.Mirrors s n k (t.peek >>= f) (Parser.peek >>= g) := by
  intro i c hi hc hl
  rw [MirrorsAt, hc.runAt_peek_bind, Parser.run_bind, Parser.run_peek]
  exact h i c hi hc hl

theorem peek : t.Mirrors s n 0 t.peek Parser.peek := by
  rw [← bind_pure t.peek, ← bind_pure Parser.peek]
  exact peek_bind fun i c hi hc hl => pure c.head i c hi hc hl

theorem advance : t.Mirrors s n 0 t.advance Parser.advance := by
  rw [← bind_pure t.advance, ← bind_pure Parser.advance]
  intro i c hi hc hl
  by_cases he : c.head.token = .eof
  · exact .advance_bind_eof hc he (pure c.head i c hi hc hl)
  · exact (MirrorsAt.advance_pure (fun l => l) hc he).mono (Nat.zero_le 1)

/-- An end mark is refused, and any other token is taken. -/
theorem advance_bind {f : Lexeme → TapeReader β} {g : Lexeme → Parser β}
    (he : ∀ l, l.token = .eof → t.Mirrors s (n + 1) 1 (f l) (g l))
    (hf : ∀ l, l.token ≠ .eof → t.Mirrors (s + 1) n 0 (f l) (g l)) :
    t.Mirrors s (n + 1) 1 (t.advance >>= f) (Parser.advance >>= g) := by
  intro i c hi hc hl
  by_cases h : c.head.token = .eof
  · exact .advance_bind_eof hc h (he c.head h i c hi hc hl)
  · have htail := hc.tail h
    have hless := hc.length_tail h
    have hl : c.tail.rest.length ≤ n := by omega
    exact .advance_bind hc h (hf c.head h i.next c.tail (Nat.succ_le_succ hi) htail.shows hl)

theorem atEnd : t.Mirrors s n 0 t.atEnd Parser.atEnd :=
  peek.bind fun l => pure (l.token == .eof)

theorem check (token : Token) : t.Mirrors s n 0 (t.check token) (Parser.check token) :=
  peek.bind fun l => pure (l.token.sameKind token)

theorem eat? (token : Token) : t.Mirrors s n 0 (t.eat? token) (Parser.eat? token) := by
  refine (check token).bind fun b => .ite ?_ (pure none) b
  exact advance.bind fun l => pure (some l)

theorem eat (token : Token) : t.Mirrors s n 0 (t.eat token) (Parser.eat token) :=
  (eat? token).bind fun found => pure found.isSome

theorem eatExact (token : Token) : t.Mirrors s n 0 (t.eatExact token) (Parser.eatExact token) := by
  refine peek.bind fun l => ?_
  by_cases h : l.token = token
  · simp only [if_pos h, Parser.discard_bind]
    exact advance.bind fun _ => pure true
  · simp only [if_neg h]
    exact pure false

theorem failAt (l : Lexeme) (expected : String) :
    t.Mirrors s n k (Tape.failAt l expected) (Parser.failAt l expected : Parser α) := by
  intro i c hi hc hl
  rw [MirrorsAt, Parser.run_failAt]
  exact .error (.refl hc)

theorem failHere (expected : String) :
    t.Mirrors s n k (t.failHere expected) (Parser.failHere expected : Parser α) :=
  peek_bind fun i c hi hc hl => failAt c.head expected i c hi hc hl

theorem expect (token : Token) (expected : String) :
    t.Mirrors s n 0 (t.expect token expected) (Parser.expect token expected) := by
  refine (eat? token).bind fun found => ?_
  cases found with
  | none => exact failHere expected
  | some l => exact pure l

theorem expectIdent (expected : String) :
    t.Mirrors s n 0 (t.expectIdent expected) (Parser.expectIdent expected) := by
  refine peek.bind fun l => ?_
  rcases l with ⟨token, span⟩
  cases token with
  | ident text => exact advance.bind fun l => pure (Name.mk text l.span)
  | _ => exact failHere expected

/-- The name of a type is a token. -/
theorem expectTypeName (expected : String) :
    t.Mirrors s n 1 (t.expectTypeName expected) (Parser.expectTypeName expected) := by
  refine peek_bind fun i c hi hc hl => ?_
  rcases hh : c.head with ⟨token, span⟩
  have hfail : t.MirrorsAt i c 1 (t.failHere expected) (Parser.failHere expected : Parser Name) :=
    failHere expected i c hi hc hl
  cases token with
  | typeName text =>
    exact .advance_pure (fun l => Name.mk text l.span) hc (by rw [hh]; nofun)
  | _ => exact hfail

theorem closeParen (opening : Lexeme) (expected : String) :
    t.Mirrors s n 0 (t.closeParen opening expected)
      (Parser.closeParen Parser.eatExact opening expected) := by
  refine (eatExact _).bind fun b => .ite (pure ()) ?_ b
  exact atEnd.bind fun b => .ite (refuse _) (failHere expected) b

/-! ## Expressions -/

theorem numberLiteral (text : String) (span : Span) :
    t.Mirrors s n 0 (Tape.numberLiteral text span) (Parser.numberLiteral text span) := by
  rw [Tape.numberLiteral, Parser.numberLiteral]
  rcases Binary32.ofText? text with _ | value
  · exact refuse _
  · exact pure _

/-- A chain goes on as long as it takes operators, and no operator is an end mark. -/
theorem chainFrom {m : Nat} {stratum : Stratum} {tighter : List Stratum} {operand : Parser Expr}
    (hstratum : stratum .eof = none) (ho : ∀ s, t.Mirrors s n 1 (t.level tighter) operand)
    (hm : m ≤ n) (left : Expr) :
    t.Mirrors s m 0 (t.chainFrom stratum tighter left)
      (Parser.chainFrom stratum operand m left) := by
  induction m generalizing s left with
  | zero =>
    intro i c hi hc hl
    rw [MirrorsAt, Tape.chainFrom, hc.runAt_peek_bind, head_eof hl, hstratum]
    exact .ok (.refl hc) (Nat.le_refl _)
  | succ m ih =>
    rw [Tape.chainFrom, Parser.chainFrom]
    refine peek_bind fun i c hi hc hl => ?_
    rcases hop : stratum c.head.token with _ | op
    · exact pure left i c hi hc hl
    · have he : c.head.token ≠ .eof := fun he => by simp [he, hstratum] at hop
      have hless := hc.length_tail he
      simp only [Parser.discard_bind]
      refine (MirrorsAt.advance_bind (m := 0) hc he ?_).mono (Nat.zero_le _)
      have hoperand : t.Mirrors (s + 1) m 0 (t.level tighter) operand :=
        (ho _).mono (Nat.le_refl _) (by omega) (Nat.zero_le 1)
      refine hoperand.bind (fun right => ih (by omega) (.binary op left right)) i.next c.tail
        (Nat.succ_le_succ hi) (hc.tail he).shows ?_
      omega

/-- Operands of some strata are operands of the tightest one with chains around them. -/
theorem level {factor : Parser Expr} (hf : ∀ s, t.Mirrors s n 1 t.factor factor)
    (strata : List Stratum) (hstrata : ∀ stratum ∈ strata, stratum .eof = none) :
    t.Mirrors s n 1 (t.level strata) (strata.foldr (Parser.chain n) factor) := by
  induction strata generalizing s with
  | nil =>
    rw [Tape.level]
    exact hf s
  | cons stratum tighter ih =>
    obtain ⟨hstratum, htighter⟩ := List.forall_mem_cons.mp hstrata
    rw [Tape.level]
    refine (ih htighter).bind fun left => ?_
    exact chainFrom hstratum (fun _ => ih htighter) (Nat.le_refl n) left

theorem strata {factor : Parser Expr} (hf : ∀ s, t.Mirrors s n 1 t.factor factor) :
    t.Mirrors s n 1 t.expression (Parser.strata n factor) := by
  apply level hf
  intro stratum hs
  rcases h : stratum .eof with _ | op
  · rfl
  · exact absurd rfl (Token.ne_eof_of_isMark (Stratum.isMark_of_mem hs h))

theorem arguments {m : Nat} {expression : Parser Expr}
    (he : ∀ s, t.Mirrors s n 1 t.expression expression) (opening : Lexeme) (hm : m ≤ n) :
    t.Mirrors s m 0 (t.arguments opening)
      (Parser.arguments Parser.eatExact expression opening m) := by
  induction m generalizing s with
  | zero =>
    intro i c hi hc hl
    rw [Tape.arguments]
    apply MirrorsAt.unclosed hc (head_eof hl)
    nofun
  | succ m ih =>
    rw [Tape.arguments]
    simp only [Parser.arguments, Parser.discard_bind]
    refine (eatExact _).bind fun b => .ite (pure []) ?_ b
    refine atEnd.bind fun b => .ite (refuse _) ?_ b
    refine loose (take ((he s).mono (Nat.le_refl s) hm (Nat.le_refl 1)) fun arg => ?_)
    have hargs : t.Mirrors (s + 1) m 0 (t.arguments opening >>= fun args => Pure.pure (arg :: args))
        (Parser.arguments Parser.eatExact expression opening m >>= fun args =>
          Pure.pure (arg :: args)) :=
      (ih (by omega)).bind fun args => pure (arg :: args)
    refine (check _).bind fun b => ?_
    cases b with
    | true => exact hargs
    | false => exact (expect _ _).bind fun _ => hargs

theorem callTail {expression : Parser Expr} (he : ∀ s, t.Mirrors s n 1 t.expression expression) :
    t.Mirrors s n 0 t.callTail (Parser.callTail Parser.eatExact n expression) := by
  rw [Tape.callTail]
  simp only [Parser.callTail, Parser.discard_bind]
  refine (expect _ _).bind fun _ => (expectIdent _).bind fun member =>
    (expect _ _).bind fun opening => ?_
  exact (arguments he opening (Nat.le_refl n)).bind fun args => pure (member, args)

/-- A factor is a token at least, and what is nested in it has less tokens left. -/
theorem factor : t.Mirrors s n 1 t.factor (Parser.factor Parser.eatExact n) := by
  induction n generalizing s with
  | zero =>
    intro i c hi hc hl
    rw [Tape.factor]
    apply MirrorsAt.advance_fail hc (head_eof hl)
    rw [head_eof hl]
  | succ n ih =>
    have he (s : Nat) : t.Mirrors s n 1 t.expression (Parser.strata n _) := strata fun s => ih
    rw [Tape.factor, Parser.factor]
    refine advance_bind (fun l hl => ?_) fun l hl => ?_
    · simp only [hl]
      exact failAt l _
    rcases l with ⟨token, span⟩
    cases token with
    | dot =>
      refine peek.bind fun l' => ?_
      rcases l' with ⟨token', span'⟩
      cases token' with
      | number digits => exact advance.bind fun last => numberLiteral _ _
      | _ => exact failHere _
    | number text => exact numberLiteral text span
    | lparen d =>
      exact (he _).loose.bind fun inner => (closeParen ⟨.lparen d, span⟩ _).bind fun _ => pure inner
    | ident text => exact pure _
    | minus => exact ih.loose.bind fun _ => pure _
    | bang => exact ih.loose.bind fun _ => pure _
    | keyNew =>
      refine (expectTypeName _).loose.bind fun type => (expect _ _).bind fun opening => ?_
      exact (arguments he opening (Nat.le_refl n)).bind fun _ => pure _
    | qualifier text => exact (callTail he).bind fun _ => pure _
    | _ => exact failAt ⟨_, span⟩ _

theorem expression : t.Mirrors s n 1 t.expression (Parser.expressionWithin Parser.eatExact n) :=
  strata fun _ => factor

/-! ## Statements -/

theorem block {m : Nat} {statement : Parser Stmt} (hs : ∀ s, t.Mirrors s n 1 t.statement statement)
    (opening : Lexeme) (hm : m ≤ n) :
    t.Mirrors s m 0 (t.block opening) (Parser.block Parser.eatExact statement opening m) := by
  induction m generalizing s with
  | zero =>
    intro i c hi hc hl
    rw [Tape.block]
    apply MirrorsAt.unclosed hc (head_eof hl)
    nofun
  | succ m ih =>
    rw [Tape.block]
    refine (eatExact _).bind fun b => .ite (pure []) ?_ b
    refine atEnd.bind fun b => .ite (refuse _) ?_ b
    refine loose (take ((hs s).mono (Nat.le_refl s) hm (Nat.le_refl 1)) fun first => ?_)
    exact (ih (by omega)).bind fun others => pure (first :: others)

theorem branchBody {statement : Parser Stmt} (hs : ∀ s, t.Mirrors s n 1 t.statement statement) :
    t.Mirrors s n 0 t.branchBody (Parser.branchBody Parser.eatExact n statement) := by
  rw [Tape.branchBody]
  refine (eat? _).bind fun found => ?_
  cases found with
  | none => exact (hs s).loose.bind fun _ => pure _
  | some opening => exact block hs opening (Nat.le_refl n)

theorem assignOp : t.Mirrors s n 0 t.assignOp Parser.assignOp := by
  rw [Tape.assignOp]
  simp only [Parser.assignOp, Parser.discard_bind]
  have hop (expected : String) (op : AssignOp) :
      t.Mirrors s n 0 (t.expect .assign expected >>= fun _ => Pure.pure op)
        (Parser.expect .assign expected >>= fun _ => Pure.pure op) :=
    (expect .assign expected).bind fun _ => pure op
  refine (eat _).bind fun b => .ite ((eat _).bind fun b => .ite (pure _) (hop _ _) b) ?_ b
  refine (eat _).bind fun b => .ite ((eat _).bind fun b => .ite (pure _) (hop _ _) b) ?_ b
  refine (eat _).bind fun b => .ite (hop _ _) ((eat _).bind fun b => .ite (hop _ _) ?_ b) b
  exact (eat _).bind fun b => .ite (hop _ _) (hop _ _) b

theorem assignValue (op : AssignOp) :
    t.Mirrors s n 0 (t.assignValue op) (Parser.assignValue Parser.eatExact n op) := by
  cases op with
  | increment => exact pure _
  | decrement => exact pure _
  | _ => exact expression.loose

/-- Behind the first index there is a token before the index. -/
theorem spanFrom (hs : 0 < s) (start : Span) :
    t.Mirrors s n 0 (t.spanFrom start) (Parser.spanFrom start) := by
  intro i c hi hc hl
  obtain ⟨l, hl, hspan⟩ := Option.map_eq_some_iff.mp (hc.last (by omega))
  have hrun : (t.spanFrom start).runAt i = some (.ok (start.merge c.last), i) := by
    simp [Tape.spanFrom, lastSpan, lexemeAt, TapeReader.runAt_bind, hl, hspan]
  rw [MirrorsAt, hrun, Parser.run_spanFrom]
  exact .ok (.refl hc) (Nat.le_refl _)

/-- A statement is a token at least, and what is nested in it has less tokens left. -/
theorem statement : t.Mirrors s n 1 t.statement (Parser.statementWithin Parser.eatExact n) := by
  induction n generalizing s with
  | zero =>
    intro i c hi hc hl
    rw [MirrorsAt, Tape.statement, hc.runAt_peek_advance]
    apply MirrorsAt.advance_fail hc (head_eof hl)
    rw [head_eof hl]
  | succ n ih =>
    have hbody : ∀ s, t.Mirrors s n 1 t.statement (Parser.statementWithin Parser.eatExact n) :=
      fun s => ih
    have hspan (start : Span) :
        t.Mirrors (s + 1) n 0 (t.spanFrom start) (Parser.spanFrom start) :=
      spanFrom (Nat.succ_pos s) start
    intro i c hi hc hl
    rw [MirrorsAt, Tape.statement, hc.runAt_peek_advance]
    simp only [Parser.statementWithin, Parser.discard_bind, bind_map_left, pure_bind]
    refine advance_bind (fun l hl => ?_) (fun l hl => ?_) i c hi hc hl
    · simp only [hl]
      exact failAt l _
    rcases l with ⟨token, span⟩
    cases token with
    | keyIf =>
      refine (expect _ _).bind fun opening => expression.loose.bind fun test =>
        (closeParen opening _).bind fun _ => ?_
      refine (branchBody hbody).bind fun thenBody => (eat _).bind fun b => .ite ?_ ?_ b
      · exact (branchBody hbody).bind fun _ => (hspan span).bind fun _ => pure _
      · exact (hspan span).bind fun _ => pure _
    | typeName type =>
      refine (expectIdent _).bind fun name => (eat _).bind fun b => .ite ?_ ?_ b
      · exact expression.loose.bind fun _ => (expect _ _).bind fun _ =>
          (hspan span).bind fun _ => pure _
      · exact (expect _ _).bind fun _ => (hspan span).bind fun _ => pure _
    | keyPublic =>
      refine (expectTypeName _).loose.bind fun type => (expectIdent _).bind fun name => ?_
      refine (check _).bind fun b => .ite (refuse _) ?_ b
      exact (expect _ _).bind fun _ => (hspan span).bind fun _ => pure _
    | ident text =>
      refine assignOp.bind fun op => (assignValue op).bind fun value =>
        (expect _ _).bind fun _ => ?_
      exact (hspan span).bind fun _ => pure _
    | qualifier text =>
      refine (callTail fun s => expression).bind fun _ => (expect _ _).bind fun _ => ?_
      exact (hspan span).bind fun _ => pure _
    | keyReturn =>
      refine (expect _ _).bind fun opening => ?_
      refine (arguments (fun s => expression) opening (Nat.le_refl n)).bind fun values => ?_
      exact (expect _ _).bind fun _ => (hspan span).bind fun _ => pure _
    | _ => exact failAt ⟨_, span⟩ _

/-! ## Programs -/

/-- A reader that goes on behind a token that is eaten has one token less left. -/
theorem ite_eat {token : Token} (ht : Token.eof.sameKind token = false)
    (hx : t.Mirrors (s + 1) n 0 x p) (hy : t.Mirrors s (n + 1) 0 y q) :
    t.Mirrors s (n + 1) 0 (do if ← t.eat token then x else y)
      (do if ← Parser.eat token then p else q) := by
  have htape : (do if ← t.eat token then x else y) =
      t.peek >>= fun l =>
        if l.token.sameKind token = true then t.advance >>= fun _ => x else y := by
    simp only [Tape.eat, Tape.eat?, Tape.check, bind_assoc, pure_bind]
    refine bind_congr fun l => ?_
    cases l.token.sameKind token <;> simp
  have hparser : (do if ← Parser.eat token then p else q) =
      Parser.peek >>= fun l =>
        if l.token.sameKind token = true then Parser.advance >>= fun _ => p else q := by
    simp only [Parser.eat, Parser.eat?, Parser.check, bind_assoc, pure_bind]
    refine bind_congr fun l => ?_
    cases l.token.sameKind token <;> simp
  rw [htape, hparser]
  refine peek_bind fun i c hi hc hl => ?_
  cases hk : c.head.token.sameKind token with
  | false => exact hy i c hi hc hl
  | true =>
    have he : c.head.token ≠ .eof := fun he => by simp [he, ht] at hk
    have hless := hc.length_tail he
    refine (MirrorsAt.advance_bind (m := 0) hc he ?_).mono (Nat.zero_le _)
    exact hx i.next c.tail (Nat.succ_le_succ hi) (hc.tail he).shows (by omega)

/-- Every parameter begins with the name of its type. -/
theorem parameters : t.Mirrors s n 0 t.parameters (Parser.parameters n) := by
  induction n generalizing s with
  | zero =>
    intro i c hi hc hl
    have hfail : (t.expectTypeName "parameter type").runAt i =
        some (.error (.refusal (c.head.refusal "parameter type")), i) := by
      rw [Tape.expectTypeName, hc.runAt_peek_bind, head_eof hl]
      exact hc.runAt_peek_bind _
    rw [MirrorsAt, Tape.parameters, TapeReader.runAt_bind, hfail, Parser.parameters,
      Parser.run_failHere]
    exact .error (.refl hc)
  | succ n ih =>
    rw [Tape.parameters]
    simp only [Parser.parameters, Parser.discard_bind]
    refine loose (take (expectTypeName _) fun type => (expectIdent _).bind fun name => ?_)
    refine (eat _).bind fun b => .ite (pure _) ?_ b
    exact (expect _ _).bind fun _ => ih.bind fun _ => pure _

theorem method : t.Mirrors s n 0 t.method (Parser.method Parser.eatExact n) := by
  rw [Tape.method]
  simp only [Parser.method, Parser.discard_bind, pure_bind]
  refine (expectIdent _).bind fun name => (expect _ _).bind fun _ => ?_
  have hbody (params : List Parameter) :
      t.Mirrors s n 0
        (t.expect (.lbrace 0) "'\x7b' to begin method" >>= fun opening =>
          t.block opening >>= fun body => Pure.pure (Method.mk name params body))
        (Parser.expect (.lbrace 0) "'\x7b' to begin method" >>= fun opening =>
          Parser.block Parser.eatExact (Parser.statementWithin Parser.eatExact n) opening n >>=
            fun body => Pure.pure (Method.mk name params body)) :=
    (expect _ _).bind fun opening =>
      (block (fun s => statement) opening (Nat.le_refl n)).bind fun body => pure _
  exact (eat _).bind fun b => .ite (hbody []) (parameters.bind hbody) b

/-- A global variable begins with the name of its type. -/
theorem globalVar : t.Mirrors s n 1 t.globalVar Parser.globalVar := by
  rw [Tape.globalVar]
  simp only [Parser.globalVar, Parser.discard_bind]
  refine (expectTypeName _).bind fun type => (expectIdent _).bind fun name => ?_
  exact (expect _ _).bind fun _ => pure _

theorem items : t.Mirrors s n 0 t.items (Parser.items Parser.eatExact n) := by
  induction n generalizing s with
  | zero =>
    intro i c hi hc hl
    rw [MirrorsAt, Tape.items, TapeReader.runAt_bind, hc.runAt_atEnd, head_eof hl]
    exact .ok (.refl hc) (Nat.le_refl _)
  | succ n ih =>
    rw [Tape.items]
    refine atEnd.bind fun b => .ite (pure []) ?_ b
    refine ite_eat rfl ?_ ((check _).bind fun b => .ite ?_ (failHere _) b)
    · exact method.bind fun m => ih.bind fun others => pure _
    · exact loose (take globalVar fun d => ih.bind fun others => pure _)

end Mirrors

/-! ## Calls -/

/-- The reader of a cursor that is called, bounded by the tokens that remain. -/
def Call.parser : Call → Parser Phrase
  | .expression => return .expression (← Parser.expression)
  | .statement => return .statement (← Parser.statement)
  | .program => return .program (← Parser.program)

/-- What a call reads from a cursor, or why it refuses it, and the cursor behind the call. -/
def Call.attempt (call : Call) (c : Cursor) : Except SourceError Phrase × Cursor :=
  match call.parser.run c with
  | .ok a c' => (.ok a, c')
  | .error e c' => (.error e, c')

/-- Calls one after the other from a cursor on. -/
def attempts : List Call → Cursor → List (Except SourceError Phrase × Cursor)
  | [], _ => []
  | call :: calls, c => call.attempt c :: attempts calls (call.attempt c).2

/-- How many tokens a call takes at least if it reads something. -/
def Call.least : Call → Nat
  | .program => 0
  | _ => 1

/-- A call ended on the tape, and went forward to get there. -/
structure Visit.Advances (t : Tape) (v : Visit) : Prop where
  /-- no token was looked up off the tape -/
  found : ∀ index, v.answer ≠ .error (.offTape index)
  /-- the index where it ended is one of the tape -/
  lt : v.stop.index < t.lexemes.length
  le : v.start.index ≤ v.stop.index
  /-- it went from index to index, each time to the next one -/
  trail : v.stop.trail =
    (List.range' v.start.index (v.stop.index - v.start.index)).reverse ++ v.start.trail
  /-- it did not pass an end mark -/
  le_end : ∀ e, v.start.index ≤ e → t.EndsAt e → v.stop.index ≤ e
  /-- an expression and a statement are a token at least -/
  takes : v.call ≠ .program → ∀ a, v.answer = .ok a → v.start.index < v.stop.index
  /-- a program is read up to an end mark -/
  ends : v.call = .program → ∀ a, v.answer = .ok a → t.EndsAt v.stop.index

/-- The bound of a reader of a cursor is large enough. -/
theorem MirrorsAt.remaining {x : TapeReader α} {p : Nat → Parser α}
    (h : t.MirrorsAt i c k x (p c.rest.length)) : t.MirrorsAt i c k x (Parser.remaining >>= p) := by
  rw [MirrorsAt, Parser.run_bind, Parser.run_remaining]
  exact h

theorem Shows.mirrorsAt (hc : t.Shows i c) (call : Call) :
    t.MirrorsAt i c call.least (call.reader t) call.parser := by
  cases call with
  | expression =>
    have h : t.MirrorsAt i c 1 t.expression Parser.expression :=
      .remaining (Mirrors.expression i c (Nat.zero_le _) hc (Nat.le_refl _))
    exact h.bind (m := 0) fun e j c' hj _ => .ok (.refl hj.shows) (Nat.le_refl _)
  | statement =>
    have h : t.MirrorsAt i c 1 t.statement Parser.statement :=
      .remaining (Mirrors.statement i c (Nat.zero_le _) hc (Nat.le_refl _))
    exact h.bind (m := 0) fun s j c' hj _ => .ok (.refl hj.shows) (Nat.le_refl _)
  | program =>
    have h : t.MirrorsAt i c 0 t.program Parser.program :=
      .remaining ((Mirrors.items.bind fun _ => .pure _) i c (Nat.zero_le _) hc (Nat.le_refl _))
    exact h.bind (m := 0) fun p j c' hj _ => .ok (.refl hj.shows) (Nat.le_refl _)

/-- A program is read up to an end mark. -/
theorem Shows.head_eof_of_program {a : Phrase} (hc : t.Shows i c)
    (h : Call.program.parser.run c = .ok a c') : c'.head.token = .eof := by
  have hp := Parser.program_fulfils hc.ne_eof
  rw [Call.parser, Parser.run_bind] at h
  rcases hr : Parser.program.run c with ⟨p, c''⟩ | ⟨e, c''⟩ <;> rw [hr] at h hp
  · obtain ⟨w, -, -, ht⟩ := hp
    cases h
    exact ht
  · cases h

/-- A call that went forward advances if its answer is what it should be. -/
theorem Forward.advances {call : Call} {answer : Except Halt Phrase} (h : t.Forward i c j c')
    (hc : t.Shows i c) (hfound : ∀ index, answer ≠ .error (.offTape index))
    (htakes : call ≠ .program → ∀ a, answer = .ok a → i.index < j.index)
    (hends : call = .program → ∀ a, answer = .ok a → t.EndsAt j.index) :
    Visit.Advances t ⟨call, i, answer, j⟩ where
  found := hfound
  lt := (List.getElem?_eq_some_iff.mp h.shows.head).1
  le := h.le
  trail := h.trail
  le_end e hi he := by
    have hle := hc.le_of_endsAt hi he
    have hsame := h.same
    change j.index ≤ e
    omega
  takes := htakes
  ends := hends

/-- A call does what the bounded reader does, and advances. -/
theorem Shows.visit (hc : t.Shows i c) (call : Call) :
    ∃ answer j, (call.reader t).runAt i = some (answer, j) ∧
      answer = (call.attempt c).1.mapError .refusal ∧ t.Shows j (call.attempt c).2 ∧
      Visit.Advances t ⟨call, i, answer, j⟩ := by
  have hagrees : t.Agrees i c call.least ((call.reader t).runAt i) (call.parser.run c) :=
    hc.mirrorsAt call
  rw [Call.attempt]
  rcases hrun : call.parser.run c with ⟨a, c'⟩ | ⟨e, c'⟩ <;> rw [hrun] at hagrees
  · obtain ⟨j, hj, hforward, hk⟩ := hagrees.of_ok
    refine ⟨_, j, hj, rfl, hforward.shows, hforward.advances hc nofun (fun hcall _ _ => ?_) ?_⟩
    · cases call with
      | program => exact absurd rfl hcall
      | _ => exact hk
    · rintro rfl - -
      exact hforward.shows.endsAt (hc.head_eof_of_program hrun)
  · obtain ⟨j, hj, hforward⟩ := hagrees.of_error
    exact ⟨_, j, hj, rfl, hforward.shows, hforward.advances hc nofun nofun nofun⟩

/-- A tape begins with the tokens that it is made of. -/
theorem lexemes_ofTokens (tokens : List Lexeme) :
    ∃ behind, (ofTokens tokens).lexemes = tokens ++ behind := by
  rw [ofTokens]
  split
  · next h => exact ⟨_, (congrArg (· ++ _) (List.getLast?_eq_none_iff.mp h)).symm⟩
  · split
    · exact ⟨[], (List.append_nil _).symm⟩
    · exact ⟨_, rfl⟩

/-- Tokens without an end mark have one put behind them. -/
theorem lexemes_ofTokens_of_ne_eof {tokens : List Lexeme} (h : ∀ l ∈ tokens, l.token ≠ .eof) :
    (ofTokens tokens).lexemes = tokens ++ [⟨.eof, (Cursor.ofTokens tokens).stop⟩] := by
  have hfind : tokens.find? (fun l => l.token == .eof) = none :=
    List.find?_eq_none.mpr fun l hl => by simpa using h l hl
  simp only [Cursor.ofTokens, hfind]
  rw [ofTokens]
  split
  · next hlast =>
    rw [hlast, List.getLast?_eq_none_iff.mp hlast]
    rfl
  · next l hlast =>
    rw [dif_neg (h l (List.mem_of_getLast? hlast)), hlast]

/-- The cursor of some tokens stands at the first index of their tape. -/
theorem shows_ofTokens (tokens : List Lexeme) :
    (ofTokens tokens).Shows ⟨0, []⟩ (Cursor.ofTokens tokens) := by
  rcases hfind : tokens.find? (fun l => l.token == .eof) with _ | mark
  · have hne : ∀ l ∈ tokens, l.token ≠ .eof := fun l hl => by
      simpa using List.find?_eq_none.mp hfind l hl
    refine ⟨⟨⟨.eof, _⟩, [], ?_, rfl, rfl⟩, ?_, nofun⟩
    · rw [Cursor.rest_ofTokens_of_ne_eof hne]
      exact lexemes_ofTokens_of_ne_eof hne
    · rwa [Cursor.rest_ofTokens_of_ne_eof hne]
  · obtain ⟨hmark, front, between, htokens, hfront⟩ := List.find?_eq_some_iff_append.mp hfind
    obtain ⟨behind, hlexemes⟩ := lexemes_ofTokens tokens
    have hne : ∀ l ∈ front, l.token ≠ .eof := fun l hl => by simpa using hfront l hl
    have hrest : (Cursor.ofTokens tokens).rest = front := by
      rw [htokens, Cursor.rest_ofTokens,
        List.takeWhile_append_of_pos fun l hl => by simpa using hne l hl]
      simp [eq_of_beq hmark]
    refine ⟨⟨mark, between ++ behind, ?_, eq_of_beq hmark, ?_⟩, ?_, nofun⟩
    · rw [List.drop_zero, hlexemes, hrest, htokens, List.append_assoc, List.cons_append]
    · simp only [Cursor.ofTokens, hfind]
    · rwa [hrest]

/-- Calls from a place on come to an end, and each does what the bounded reader does. -/
theorem Shows.session (hc : t.Shows i c) (calls : List Call) :
    ∃ visits, t.session calls i = some visits ∧ visits.map Visit.call = calls ∧
      List.Forall₂ (fun v r => v.answer = r.1.mapError .refusal ∧ t.Shows v.stop r.2) visits
        (attempts calls c) ∧
      ∀ v ∈ visits, v.Advances t := by
  induction calls generalizing i c with
  | nil => exact ⟨[], rfl, rfl, .nil, nofun⟩
  | cons call calls ih =>
    obtain ⟨answer, j, hrun, hanswer, hshows, hadvances⟩ := hc.visit call
    obtain ⟨visits, hsession, hcalls, hsame, hall⟩ := ih hshows
    refine ⟨⟨call, i, answer, j⟩ :: visits, ?_, ?_, .cons ⟨hanswer, hshows⟩ hsame, ?_⟩
    · rw [Tape.session, hrun]
      simp [hsession]
    · rw [List.map_cons, hcalls]
    · exact List.forall_mem_cons.mpr ⟨hadvances, hall⟩

/-- Whatever the tokens are and whatever is called, also after failures: every call comes to an end
and has the outcome of the bounded reader. It looks up no token off the tape, goes forward by one
index at a time and not past the next end mark, takes a token at least if it reads an expression or
a statement, and stands at an end mark if it has read a program. -/
theorem session_advances (tokens : List Lexeme) (calls : List Call) :
    ∃ visits, (ofTokens tokens).session calls ⟨0, []⟩ = some visits ∧
      visits.map Visit.call = calls ∧
      List.Forall₂
        (fun v r => v.answer = r.1.mapError .refusal ∧ (ofTokens tokens).Shows v.stop r.2) visits
        (attempts calls (Cursor.ofTokens tokens)) ∧
      ∀ v ∈ visits, v.Advances (ofTokens tokens) :=
  (shows_ofTokens tokens).session calls

end Tape

end ScriptGraph
