import ScriptGraph.Proofs.Parsing.Recognition
import ScriptGraph.Proofs.Token.Nesting

/-!
# Readers in a source that goes on

Two questions are asked of a reader `p`. Does it say the same where the source goes on? And does it say
the same as a reader `q` that finds closing brackets in another way? One relation answers both: it
compares `p` in a source with `q` in the source with a continuation, which may be none.

* `Continuation` — how a source goes on;
* `Cursor.At d n c` — before the cursor stand at most `n` tokens, with the depths they must have;
* `Agrees x p q c Q` — where `p` has decided, `q` says the same in the source that goes on as `x`, and
  `Q` holds of the results;
* `Follows x p q c Q` — besides, `p` does not decide where the tokens have run out.

There is one lemma for each step that a reader takes.
-/

namespace ScriptGraph

/-- How a source goes on: not at all, or with more tokens and another end. -/
abbrev Continuation := Option (List Lexeme × Span)

/-- The number of tokens with which a source goes on. -/
def Continuation.count : Continuation → Nat
  | none => 0
  | some (us, _) => us.length

namespace Cursor

/-- The cursor in a source that goes on. -/
def extend (c : Cursor) : Continuation → Cursor
  | none => c
  | some (us, stop) => { c with rest := c.rest ++ us, stop := stop }

/-- Is the token under the cursor the same in a source that goes on? -/
def Knows (x : Continuation) (c : Cursor) : Prop :=
  x = none ∨ c.rest ≠ []

/-- The cursor stands before at most `n` tokens, with the depths they have where `d` brackets are
open. -/
structure At (d : Depths) (n : Nat) (c : Cursor) : Prop where
  /-- the tokens have their depths -/
  fits : d.Fits c.rest
  /-- none of them is an end mark -/
  ne_eof : ∀ l ∈ c.rest, l.token ≠ .eof
  /-- there are at most `n` -/
  length_le : c.rest.length ≤ n

variable {x : Continuation} {c : Cursor} {d : Depths} {n m : Nat}

theorem head_extend (h : c.Knows x) : (c.extend x).head = c.head := by
  rcases c with ⟨_ | ⟨l, rest⟩, stop, last⟩
  · obtain rfl : x = none := h.resolve_right fun h => h rfl
    rfl
  · rcases x with _ | ⟨us, stop'⟩ <;> rfl

theorem tail_extend (h : c.Knows x) : (c.extend x).tail = c.tail.extend x := by
  rcases c with ⟨_ | ⟨l, rest⟩, stop, last⟩
  · obtain rfl : x = none := h.resolve_right fun h => h rfl
    rfl
  · rcases x with _ | ⟨us, stop'⟩ <;> rfl

@[simp] theorem last_extend : (c.extend x).last = c.last := by
  rcases x with _ | ⟨us, stop⟩ <;> rfl

theorem length_extend : (c.extend x).rest.length = x.count + c.rest.length := by
  rcases x with _ | ⟨us, stop⟩
  · exact (Nat.zero_add _).symm
  · simp [extend, Continuation.count, Nat.add_comm]

theorem rest_tail_of_nil (h : c.rest = []) : c.tail.rest = [] := by
  rcases c with ⟨rest, stop, last⟩
  cases h
  rfl

theorem token_head_of_nil (h : c.rest = []) : c.head.token = .eof := by
  rcases c with ⟨rest, stop, last⟩
  cases h
  rfl

namespace At

theorem rest_eq_nil (h : c.At d n) (he : c.head.token = .eof) : c.rest = [] :=
  Within.rest_eq_nil ⟨h.length_le, h.ne_eof⟩ he

theorem mono (h : c.At d n) (hn : n ≤ m) : c.At d m :=
  ⟨h.fits, h.ne_eof, Nat.le_trans h.length_le hn⟩

/-- The token under the cursor has its depth. -/
theorem mark_head (h : c.At d n) : d.mark c.head.token = c.head.token := by
  rcases c with ⟨_ | ⟨l, rest⟩, stop, last⟩
  · rfl
  · exact (Depths.fits_cons.mp h.fits).1

/-- A token of the kind of a mark is that mark with its depth. -/
theorem token_head {mark : Token} (h : c.At d n) (hm : mark.isMark = true)
    (hk : c.head.token.sameKind mark = true) : c.head.token = d.mark mark := by
  rw [← h.mark_head, ← Depths.mark_flat, Token.flat_of_sameKind hm hk]

/-- The cursor moves behind the token under it. -/
theorem tail (h : c.At d n) : c.tail.At (d.next c.head.token) (n - 1) := by
  rcases c with ⟨_ | ⟨l, rest⟩, stop, last⟩
  · exact ⟨h.fits, h.ne_eof, Nat.zero_le _⟩
  · exact ⟨(Depths.fits_cons.mp h.fits).2, fun l hl => h.ne_eof l (List.mem_cons_of_mem _ hl),
      Nat.le_sub_one_of_lt h.length_le⟩

/-- The cursor moves behind a mark. -/
theorem tail_mark {mark : Token} (h : c.At d n) (hm : mark.isMark = true)
    (hk : c.head.token.sameKind mark = true) : c.tail.At (d.next mark) (n - 1) := by
  have ht := h.tail
  rwa [h.token_head hm hk, Depths.next_mark] at ht

end At

end Cursor

/-- Two brackets of one kind that have their depths are equal. -/
theorem Depths.eq_of_sameKind {d : Depths} {t t' : Token} (h : d.mark t = t) (h' : d.mark t' = t')
    (hb : t'.depth?.isSome = true) (hk : t.sameKind t' = true) : t = t' := by
  have hm : t'.flat.isMark = true ∧ t'.flat.bare = t'.bare := by
    cases t' <;> first | exact ⟨rfl, rfl⟩ | cases hb
  have hflat : t.flat = t'.flat := Token.flat_of_sameKind hm.1 (by rwa [Token.sameKind, hm.2])
  rw [← h, ← h', ← Depths.mark_flat d t, hflat, Depths.mark_flat]

namespace Parser

variable {α β : Type}

/-- Is an outcome the same in a source that goes on? -/
def Decided (x : Continuation) : EStateM.Result SourceError Cursor α → Prop
  | .ok _ c => c.Knows x
  | .error e _ => x = none ∨ e.isRejection = true

/-- An outcome in a source that goes on. -/
def extendOutcome (x : Continuation) :
    EStateM.Result SourceError Cursor α → EStateM.Result SourceError Cursor α
  | .ok a c => .ok a (c.extend x)
  | .error e c => .error e (c.extend x)

/-- If the outcome of `p` at `c` is decided, then `q` has it too in the source that goes on. A result
satisfies `Q`. -/
structure Agrees (x : Continuation) (p q : Parser α) (c : Cursor) (Q : α → Cursor → Prop) : Prop where
  /-- decided outcomes are the same -/
  same : Decided x (p.run c) → q.run (c.extend x) = extendOutcome x (p.run c)
  /-- the result and where the reader stops -/
  result : ∀ a c', p.run c = .ok a c' → Q a c'

/-- The reader `q` follows `p` in a source that goes on: it agrees with `p`, which decides nothing before
it has seen a token. -/
structure Follows (x : Continuation) (p q : Parser α) (c : Cursor) (Q : α → Cursor → Prop) : Prop
    extends Agrees x p q c Q where
  /-- nothing is decided at the end -/
  waits : c.rest = [] → x ≠ none → ¬ Decided x (p.run c)

variable {x : Continuation} {p q p' q' : Parser α} {f g : α → Parser β} {c c' : Cursor} {d : Depths}
  {n m : Nat} {Q : α → Cursor → Prop} {R : β → Cursor → Prop}

theorem knows_of_waits (h : c.rest = [] → x ≠ none → ¬ Decided x (p.run c)) (hd : Decided x (p.run c)) :
    c.Knows x := by
  by_cases hx : x = none
  · exact .inl hx
  · exact .inr fun hc => h hc hx hd

/-- The first steps of two readers are the same. -/
theorem Agrees.step (hp : p.run c = p'.run c') (hq : q.run (c.extend x) = q'.run (c'.extend x))
    (h : Agrees x p' q' c' Q) : Agrees x p q c Q where
  same := fun hd => by
    rw [hp] at hd ⊢
    rw [hq]
    exact h.same hd
  result := hp ▸ h.result

/-- The first steps of two readers are the same if the token under the cursor is. -/
theorem Follows.step (hp : p.run c = p'.run c')
    (hq : c.Knows x → q.run (c.extend x) = q'.run (c'.extend x)) (hc : c.rest = [] → c'.rest = [])
    (h : Follows x p' q' c' Q) : Follows x p q c Q where
  same := fun hd => by
    rw [hp] at hd ⊢
    have hwaits := fun hn hx => h.waits (hc hn) hx
    rw [← hp] at hwaits
    rw [hq (knows_of_waits hwaits (hp ▸ hd))]
    exact h.same hd
  result := hp ▸ h.result
  waits := hp ▸ fun hn hx => h.waits (hc hn) hx

theorem Follows.pure {a : α} (h : Q a c) : Follows x (pure a) (pure a) c Q where
  same := fun _ => rfl
  result := fun a' c' hr => by
    cases hr
    exact h
  waits := fun hn hx hd => hd.elim hx fun hc => hc hn

theorem Follows.unfinished {e : SourceError} (he : e.isRejection = false) :
    Follows x (throw e) (throw e) c Q where
  same := fun _ => rfl
  result := fun _ _ hr => nomatch hr
  waits := fun _ hx hd => hd.elim hx (by simp [he])

theorem Follows.rejected {e : SourceError} (hc : c.rest ≠ []) : Follows x (throw e) (throw e) c Q where
  same := fun _ => rfl
  result := fun _ _ hr => nomatch hr
  waits := fun hn => absurd hn hc

theorem Follows.bind (h : Follows x p q c Q) (hf : ∀ a c', Q a c' → Follows x (f a) (g a) c' R) :
    Follows x (p >>= f) (q >>= g) c R := by
  rcases hr : p.run c with ⟨a, c₁⟩ | ⟨e, c₁⟩
  · have hf := hf a c₁ (h.result a c₁ hr)
    have hrun : (p >>= f).run c = (f a).run c₁ := by rw [run_bind, hr]
    -- What `f` decides, it decides behind the result of `p`, which is then decided too.
    have hp : Decided x ((p >>= f).run c) → Decided x (p.run c) := fun hd => by
      rw [hr]
      exact knows_of_waits hf.waits (hrun ▸ hd)
    refine ⟨⟨fun hd => ?_, hrun ▸ hf.result⟩, fun hn hx hd => h.waits hn hx (hp hd)⟩
    rw [run_bind, h.same (hp hd), hr, hrun]
    exact hf.same (hrun ▸ hd)
  · have hrun : (p >>= f).run c = .error e c₁ := by rw [run_bind, hr]
    have hp : Decided x ((p >>= f).run c) → Decided x (p.run c) := fun hd => by
      rw [hr]
      rwa [hrun] at hd
    refine ⟨⟨fun hd => ?_, fun b c' hb => ?_⟩, fun hn hx hd => h.waits hn hx (hp hd)⟩
    · rw [run_bind, h.same (hp hd), hr, hrun]
      rfl
    · rw [hrun] at hb
      cases hb

theorem Follows.mono {R : α → Cursor → Prop} (h : Follows x p q c Q) (hR : ∀ a c', Q a c' → R a c') :
    Follows x p q c R :=
  ⟨⟨h.same, fun a c' hr => hR a c' (h.result a c' hr)⟩, h.waits⟩

/-- A reader that decides nothing needs to be followed only where the source does not go on. -/
theorem Follows.undecided (hq : x = none → q.run c = p.run c)
    (hp : match p.run c with
      | .ok a c' => c'.rest = [] ∧ Q a c'
      | .error e _ => e.isRejection = false) : Follows x p q c Q := by
  have hd : Decided x (p.run c) → x = none := fun hd => by
    rcases hr : p.run c with ⟨a, c'⟩ | ⟨e, c'⟩ <;> rw [hr] at hp hd
    · exact hd.resolve_right fun h => h hp.1
    · exact hd.resolve_right (by simp [hp])
  refine ⟨⟨fun h => ?_, fun a c' hr => ?_⟩, fun _ hx h => hx (hd h)⟩
  · cases hd h
    rw [show c.extend none = c from rfl, hq rfl]
    cases p.run c <;> rfl
  · rw [hr] at hp
    exact hp.2

/-! ## Single tokens -/

theorem Follows.failHere (expected : String) :
    Follows x (failHere expected) (failHere expected) c Q := by
  by_cases he : c.head.token = .eof
  · refine .undecided (fun _ => rfl) ?_
    simp [Lexeme.refusal, he, SourceError.isRejection]
  · have hn : c.rest ≠ [] := fun hn => he (Cursor.token_head_of_nil hn)
    refine .step (run_failHere ..) (fun hk => ?_) id (.rejected (e := c.head.refusal expected) hn)
    rw [run_failHere, Cursor.head_extend hk]
    rfl

/-- One token is taken if `accept` yields a result for it, and refused otherwise. -/
theorem Follows.take {p : Parser α} (expected : String) (accept : Lexeme → Option α)
    (hp : ∀ c, p.run c =
      match accept c.head with
      | some a => .ok a c.tail
      | none => .error (c.head.refusal expected) c)
    (hf : ∀ a, accept c.head = some a → Follows x (f a) (g a) c.tail R) :
    Follows x (p >>= f) (p >>= g) c R := by
  rcases ha : accept c.head with _ | a
  · refine .step ?_ (fun hk => ?_) id (.failHere expected)
    · rw [run_bind, hp, ha, run_failHere]
    · rw [run_bind, hp, Cursor.head_extend hk, ha, run_failHere, Cursor.head_extend hk]
  · refine .step ?_ (fun hk => ?_) Cursor.rest_tail_of_nil (hf a ha)
    · rw [run_bind, hp, ha]
    · rw [run_bind, hp, Cursor.head_extend hk, ha, Cursor.tail_extend hk]

/-- A mark is expected. -/
theorem Follows.expect {mark : Token} {expected : String} {f g : Lexeme → Parser β}
    (hm : mark.isMark = true) (hc : c.At d n)
    (hf : ∀ (l : Lexeme) c', l.token = d.mark mark → c'.At (d.next mark) (n - 1) →
      Follows x (f l) (g l) c' R) :
    Follows x (expect mark expected >>= f) (expect mark expected >>= g) c R := by
  refine .take expected (fun l => if l.token.sameKind mark then some l else none) (fun c => ?_)
    fun l hl => ?_
  · rw [run_expect]
    by_cases hk : c.head.token.sameKind mark = true <;> simp [hk]
  · obtain ⟨hk, rfl⟩ := Option.ite_none_right_eq_some.mp hl |>.imp_right Option.some.inj
    exact hf _ _ (hc.token_head hm hk) (hc.tail_mark hm hk)

/-- An identifier is expected. -/
theorem Follows.expectIdent {expected : String} {f g : Name → Parser β} (hc : c.At d n)
    (hf : ∀ name c', c'.At d (n - 1) → Follows x (f name) (g name) c' R) :
    Follows x (expectIdent expected >>= f) (expectIdent expected >>= g) c R := by
  refine .take expected identOf? (fun c => ?_) fun name hl => ?_
  · rw [run_expectIdent]
    rcases c.head with ⟨t, s⟩
    cases t <;> rfl
  · have ht := hc.tail
    rcases hh : c.head with ⟨t, s⟩
    rw [hh] at hl ht
    cases t <;> cases hl
    exact hf _ _ ht

/-- The name of a type is expected. -/
theorem Follows.expectTypeName {expected : String} {f g : Name → Parser β} (hc : c.At d n)
    (hf : ∀ name c', c'.At d (n - 1) → Follows x (f name) (g name) c' R) :
    Follows x (expectTypeName expected >>= f) (expectTypeName expected >>= g) c R := by
  refine .take expected typeNameOf? (fun c => ?_) fun name hl => ?_
  · rw [run_expectTypeName]
    rcases c.head with ⟨t, s⟩
    cases t <;> rfl
  · have ht := hc.tail
    rcases hh : c.head with ⟨t, s⟩
    rw [hh] at hl ht
    cases t <;> cases hl
    exact hf _ _ ht

/-- A token is taken, and what follows depends on it. -/
theorem Follows.advance {f g : Lexeme → Parser β} (hc : c.At d n)
    (he : ∀ l : Lexeme, l.token = .eof → Follows x (f l) (g l) c R)
    (hf : ∀ (l : Lexeme) c', l.token ≠ .eof → d.mark l.token = l.token →
      c'.At (d.next l.token) (n - 1) → Agrees x (f l) (g l) c' R) :
    Follows x (advance >>= f) (advance >>= g) c R := by
  by_cases ht : c.head.token = .eof
  · have hn := hc.rest_eq_nil ht
    have htail : c.tail = c := by
      rcases c with ⟨rest, stop, last⟩
      cases hn
      rfl
    refine .step ?_ (fun hk => ?_) id (he c.head ht)
    · rw [run_bind, run_advance, htail]
    · rw [run_bind, run_advance, Cursor.head_extend hk, Cursor.tail_extend hk, htail]
  · have hn : c.rest ≠ [] := fun hn => ht (Cursor.token_head_of_nil hn)
    refine ⟨.step ?_ ?_ (hf c.head c.tail ht hc.mark_head hc.tail), fun hc' => absurd hc' hn⟩
    · rw [run_bind, run_advance]
    · rw [run_bind, run_advance, Cursor.head_extend (.inr hn), Cursor.tail_extend (.inr hn)]

/-! ## Choices -/

/-- A choice by the next token, which is taken if `b` holds of it. -/
theorem Follows.ifTaken {test test' : Parser Bool} {b : Bool} {p q p' q' : Parser β}
    (hp : test.run c = if b then .ok true c.tail else .ok false c)
    (hq : c.Knows x → test'.run (c.extend x) =
      if b then .ok true (c.tail.extend x) else .ok false (c.extend x))
    (h : b = true → Follows x p q c.tail R) (h' : b = false → Follows x p' q' c R) :
    Follows x (test >>= fun b => if b = true then p else p')
      (test' >>= fun b => if b = true then q else q') c R := by
  cases b with
  | true => exact .step (by simp [hp]) (fun hx => by simp [hq hx]) Cursor.rest_tail_of_nil (h rfl)
  | false => exact .step (by simp [hp]) (fun hx => by simp [hq hx]) id (h' rfl)

/-- A choice by the next token, which stays. -/
theorem Follows.ifSeen {test : Parser Bool} {b : Lexeme → Bool} {p q p' q' : Parser β}
    (hp : ∀ c, test.run c = .ok (b c.head) c) (h : b c.head = true → Follows x p q c R)
    (h' : b c.head = false → Follows x p' q' c R) :
    Follows x (test >>= fun b => if b = true then p else p')
      (test >>= fun b => if b = true then q else q') c R := by
  have hq : c.Knows x → test.run (c.extend x) = .ok (b c.head) (c.extend x) := fun hx => by
    rw [hp, Cursor.head_extend hx]
  cases hb : b c.head with
  | true => exact .step (by simp [hp, hb]) (fun hx => by simp [hq hx, hb]) id (h hb)
  | false => exact .step (by simp [hp, hb]) (fun hx => by simp [hq hx, hb]) id (h' hb)

theorem Follows.ifEat {mark : Token} {p q p' q' : Parser β} (hm : mark.isMark = true) (hc : c.At d n)
    (h : ∀ c', c'.At (d.next mark) (n - 1) → Follows x p q c' R) (h' : Follows x p' q' c R) :
    Follows x (eat mark >>= fun b => if b = true then p else p')
      (eat mark >>= fun b => if b = true then q else q') c R := by
  refine .ifTaken (run_eat mark c) (fun hx => ?_) (fun hk => h _ (hc.tail_mark hm hk)) fun _ => h'
  rw [run_eat, Cursor.head_extend hx, Cursor.tail_extend hx]

theorem Follows.ifCheck {mark : Token} {p q p' q' : Parser β}
    (h : c.head.token.sameKind mark = true → Follows x p q c R) (h' : Follows x p' q' c R) :
    Follows x (check mark >>= fun b => if b = true then p else p')
      (check mark >>= fun b => if b = true then q else q') c R :=
  .ifSeen (b := fun l => l.token.sameKind mark) (run_check mark) h fun _ => h'

theorem Follows.ifAtEnd {p q p' q' : Parser β} (h : c.head.token = .eof → Follows x p q c R)
    (h' : Follows x p' q' c R) :
    Follows x (atEnd >>= fun b => if b = true then p else p')
      (atEnd >>= fun b => if b = true then q else q') c R :=
  .ifSeen (b := fun l => l.token == .eof) run_atEnd (fun he => h (eq_of_beq he)) fun _ => h'

/-- A choice by the next token, which is taken and handed on if it is the given mark. -/
theorem Follows.eat? {mark : Token} {f g : Option Lexeme → Parser β} (hm : mark.isMark = true)
    (hc : c.At d n)
    (h : ∀ (l : Lexeme) c', l.token = d.mark mark → c'.At (d.next mark) (n - 1) →
      Follows x (f (some l)) (g (some l)) c' R)
    (h' : Follows x (f none) (g none) c R) :
    Follows x (eat? mark >>= f) (eat? mark >>= g) c R := by
  by_cases hk : c.head.token.sameKind mark = true
  · refine .step ?_ (fun hx => ?_) Cursor.rest_tail_of_nil
      (h c.head c.tail (hc.token_head hm hk) (hc.tail_mark hm hk))
    · simp [hk]
    · simp [Cursor.head_extend hx, Cursor.tail_extend hx, hk]
  · refine .step ?_ (fun hx => ?_) id h'
    · simp [hk]
    · simp [Cursor.head_extend hx, hk]

/-- The place of what was taken so far is used. -/
theorem Follows.spanFrom {start : Span} {f g : Span → Parser β} (h : ∀ s, Follows x (f s) (g s) c R) :
    Follows x (spanFrom start >>= f) (spanFrom start >>= g) c R := by
  refine .step ?_ (fun hx => ?_) id (h (start.merge c.last))
  · rw [run_bind, run_spanFrom]
  · rw [run_bind, run_spanFrom, Cursor.last_extend]

/-- The number of tokens that remain is the bound. -/
theorem Follows.remaining {f g : Nat → Parser β}
    (h : Follows x (f c.rest.length) (g (x.count + c.rest.length)) c R) :
    Follows x (remaining >>= f) (remaining >>= g) c R := by
  refine .step ?_ (fun hx => ?_) id h
  · rw [run_bind, run_remaining]
  · rw [run_bind, run_remaining, Cursor.length_extend]

/-! ## Closing brackets -/

/-- The reader `closing` finds the bracket that `eatExact` finds, wherever it is asked for the one that
has its depth. -/
def Closes (x : Continuation) (closing : Closing) : Prop :=
  ∀ {c : Cursor} {d : Depths} {n : Nat} {token : Token}, c.At d n → token.depth?.isSome = true →
    d.mark token = token → c.Knows x →
    (closing token).run (c.extend x) =
      if c.head.token == token then .ok true (c.tail.extend x) else .ok false (c.extend x)

theorem closes_eatExact : Closes x eatExact := by
  intro c d n token _ _ _ hx
  simp [Cursor.head_extend hx, Cursor.tail_extend hx]

theorem closes_eat : Closes none eat := by
  intro c d n token hc hb ht hx
  have hk : c.head.token.sameKind token = (c.head.token == token) := by
    rw [Bool.eq_iff_iff, beq_iff_eq]
    exact ⟨Depths.eq_of_sameKind hc.mark_head ht hb, fun h => by simp [h, Token.sameKind]⟩
  simp [Cursor.extend, hk]

/-- A choice by the next token, which is taken if it is the bracket that closes. -/
theorem Follows.ifClosing {closing : Closing} {token : Token} {p q p' q' : Parser β}
    (hx : Closes x closing) (hc : c.At d n) (hb : token.depth?.isSome = true)
    (ht : d.mark token = token) (h : ∀ c', c'.At (d.next token) (n - 1) → Follows x p q c' R)
    (h' : Follows x p' q' c R) :
    Follows x (eatExact token >>= fun b => if b = true then p else p')
      (closing token >>= fun b => if b = true then q else q') c R := by
  refine .ifTaken (b := c.head.token == token) ?_ (hx hc hb ht) (fun hk => h _ ?_) fun _ => h'
  · simp
  · have := hc.tail
    rwa [eq_of_beq hk] at this

end Parser

end ScriptGraph
