import ScriptGraph.Proofs.Parsing.Grammar
import ScriptGraph.Proofs.Parsing.Reading

/-!
# Readers and languages

A *language* says which words stand for which results, before which next token. A reader *recognizes*
a language if it

* takes a word of the language for its result whenever it succeeds;
* says that the source is unfinished only if what it was given is the start of a word;
* otherwise rejects a token.

`After p c w L` is the same for the rest `p` of a reader that started at `c` and has taken `w` so far.
It holds of a sequence if it holds of the parts: the start of a word is completed by a word of the part
that stopped and some words of the parts behind it, and so every language here has a word.
-/

namespace ScriptGraph

/-! ## Errors -/

namespace SourceError

/-- Does an error say that the source ended too early? -/
def isUnfinished : SourceError → Bool
  | .unexpectedEnd _ _ => true
  | .unmatchedDelimiter _ _ => true
  | _ => false

/-- Does an error say that a token cannot stand where it does? -/
def isRejection : SourceError → Bool
  | .unexpectedToken _ _ _ => true
  | .invalidNumber _ _ => true
  | .publicInitializer _ _ => true
  | _ => false

end SourceError

theorem Lexeme.refusal_of_eof {l : Lexeme} (h : l.token = .eof) (expected : String) :
    (l.refusal expected).isUnfinished = true := by
  simp [Lexeme.refusal, h, SourceError.isUnfinished]

theorem Lexeme.refusal_of_ne_eof {l : Lexeme} (h : l.token ≠ .eof) (expected : String) :
    (l.refusal expected).isRejection = true := by
  simp [Lexeme.refusal, h, SourceError.isRejection]

/-! ## Marks -/

/-- Is a token known by its kind alone, and without depth? -/
def Token.isMark : Token → Bool
  | .ident _ | .qualifier _ | .number _ | .typeName _ | .eof => false
  | .lbrace d | .rbrace d | .lparen d | .rparen d => d == 0
  | _ => true

theorem Token.bare_of_isMark {t : Token} (h : t.isMark = true) : t.bare = t := by
  cases t <;> simp_all [Token.isMark, Token.bare]

theorem Token.flat_of_bare_isMark {t : Token} (h : t.bare.isMark = true) : t.flat = t.bare := by
  cases t <;> first | rfl | cases h

/-- A token of the kind of a mark is that mark, up to its depth. -/
theorem Token.flat_of_sameKind {t x : Token} (ht : t.isMark = true) (h : x.sameKind t = true) :
    x.flat = t := by
  have hx : x.bare = t := (eq_of_beq h).trans (Token.bare_of_isMark ht)
  rw [← hx] at ht ⊢
  exact Token.flat_of_bare_isMark ht

/-- Only brackets change when depths are erased. -/
theorem Token.eq_of_flat {t x : Token} (h : x.flat = t) (ht : t.depth? = none) : x = t := by
  subst h
  cases x <;> first | rfl | cases ht

theorem Token.flat_of_isMark {t : Token} (h : t.isMark = true) : t.flat = t :=
  Token.flat_of_sameKind h (by simp [Token.sameKind])

/-- The end mark is of the kind of no mark. -/
theorem Token.ne_eof_of_sameKind {t x : Token} (ht : t.isMark = true)
    (h : x.sameKind t = true) : x ≠ .eof := by
  rintro rfl
  have ht' : Token.eof.flat = t := Token.flat_of_sameKind ht h
  rw [← ht'] at ht
  cases ht

theorem Token.ne_eof_of_isMark {t : Token} (h : t.isMark = true) : t ≠ .eof :=
  Token.ne_eof_of_sameKind h (by simp [Token.sameKind])

/-- The operators of all strata are marks. -/
theorem Stratum.isMark_of_mem {stratum : Stratum} (hs : stratum ∈ Stratum.all) {t : Token}
    {op : BinaryOp} (ht : stratum t = some op) : t.isMark = true := by
  simp only [Stratum.all, List.mem_cons, List.not_mem_nil, or_false] at hs
  rcases hs with rfl | rfl | rfl | rfl | rfl | rfl | rfl <;> cases t <;> first | rfl | cases ht

/-- Operators are no brackets. -/
theorem Stratum.depth?_of_mem {stratum : Stratum} (hs : stratum ∈ Stratum.all) {t : Token}
    {op : BinaryOp} (ht : stratum t = some op) : t.depth? = none := by
  simp only [Stratum.all, List.mem_cons, List.not_mem_nil, or_false] at hs
  rcases hs with rfl | rfl | rfl | rfl | rfl | rfl | rfl <;> cases t <;> first | rfl | cases ht

@[simp] theorem spanAfter_append (s : Span) (u v : List Lexeme) :
    spanAfter s (u ++ v) = spanAfter (spanAfter s u) v := by
  induction u generalizing s with
  | nil => rfl
  | cons l u ih => exact ih l.span

namespace Cursor

/-! ## What a reader takes -/

/-- `c.Reads w c'` says that the tokens between the cursors `c` and `c'` are the word `w`. -/
def Reads (c : Cursor) (w : List Lexeme) (c' : Cursor) : Prop :=
  c'.last = spanAfter c.last w ∧ ∃ u, c.rest = u ++ c'.rest ∧ u.map Lexeme.flat = w

/-- Are at most `n` tokens left, none of which is an end mark? -/
def Within (n : Nat) (c : Cursor) : Prop :=
  c.rest.length ≤ n ∧ ∀ l ∈ c.rest, l.token ≠ .eof

theorem Reads.refl (c : Cursor) : c.Reads [] c :=
  ⟨rfl, [], rfl, rfl⟩

theorem Reads.trans {c c₁ c₂ : Cursor} {w v : List Lexeme} (h : c.Reads w c₁)
    (h' : c₁.Reads v c₂) : c.Reads (w ++ v) c₂ := by
  obtain ⟨hl, u, hu, rfl⟩ := h
  obtain ⟨hl', u', hu', rfl⟩ := h'
  refine ⟨by rw [hl', hl, spanAfter_append], u ++ u', ?_, List.map_append⟩
  rw [hu, hu', List.append_assoc]

/-- The token under the cursor is taken. -/
theorem Reads.head {c : Cursor} (h : c.head.token ≠ .eof) : c.Reads [c.head.flat] c.tail := by
  rcases c with ⟨_ | ⟨l, rest⟩, stop, last⟩
  · exact absurd rfl h
  · exact ⟨rfl, [l], rfl, rfl⟩

theorem Reads.length_eq {c c' : Cursor} {w : List Lexeme} (h : c.Reads w c') :
    c.rest.length = w.length + c'.rest.length := by
  obtain ⟨-, u, hu, rfl⟩ := h
  rw [hu, List.length_append, List.length_map]

theorem Reads.flat_eq {c c' : Cursor} {w : List Lexeme} (h : c.Reads w c') :
    c.rest.map Lexeme.flat = w ++ c'.rest.map Lexeme.flat := by
  obtain ⟨-, u, hu, rfl⟩ := h
  rw [hu, List.map_append]

/-- What is taken starts with the token under the cursor. -/
theorem Reads.eq_cons {c c' : Cursor} {w : List Lexeme} (h : c.Reads w c') (hw : w ≠ []) :
    ∃ v, w = c.head.flat :: v := by
  obtain ⟨-, u, hu, rfl⟩ := h
  rcases c with ⟨rest, stop, last⟩
  rcases u with _ | ⟨l, u⟩
  · exact absurd rfl hw
  · cases hu
    exact ⟨u.map Lexeme.flat, rfl⟩

/-- What is left starts with the token under the cursor. -/
theorem rest_eq_cons {c : Cursor} (h : c.head.token ≠ .eof) : ∃ r, c.rest = c.head :: r := by
  rcases c with ⟨_ | ⟨l, rest⟩, stop, last⟩
  · exact absurd rfl h
  · exact ⟨rest, rfl⟩

/-- The place from the first token taken to the last one. -/
theorem Reads.merge_last {c c' : Cursor} {w : List Lexeme} {start : Span} (h : c.Reads w c')
    (hw : w.head?.map Lexeme.span = some start) : start.merge c'.last = cover w := by
  rcases w with _ | ⟨l, v⟩
  · cases hw
  · cases hw
    rw [h.1]
    rfl

theorem Within.of_reads {n : Nat} {c c' : Cursor} {w : List Lexeme}
    (hn : c.Within (n + w.length)) (h : c.Reads w c') : c'.Within n := by
  refine ⟨by have := h.length_eq; have := hn.1; omega, fun l hl => hn.2 l ?_⟩
  obtain ⟨-, u, hu, -⟩ := h
  rw [hu]
  exact List.mem_append_right u hl

theorem Within.mono {n m : Nat} {c : Cursor} (h : c.Within n) (hm : n ≤ m) : c.Within m :=
  ⟨Nat.le_trans h.1 hm, h.2⟩

theorem Within.add {n k : Nat} {c : Cursor} (h : c.Within n) : c.Within (n + k) :=
  h.mono (Nat.le_add_right n k)

/-- Only where nothing is left, the token under the cursor is the end mark. -/
theorem Within.rest_eq_nil {n : Nat} {c : Cursor} (h : c.Within n) (he : c.head.token = .eof) :
    c.rest = [] := by
  rcases c with ⟨_ | ⟨l, rest⟩, stop, last⟩
  · rfl
  · exact absurd he (h.2 l (List.mem_cons_self ..))

end Cursor

namespace Parser

variable {α β : Type}

/-! ## Recognition -/

/-- Which words stand for which results before which next token. -/
abbrev Language (α : Type) := List Lexeme → α → Token → Prop

/-- What the outcome of a reader that started at `c` says of the tokens behind `c`. -/
def Fulfils (c : Cursor) (L : Language α) : EStateM.Result SourceError Cursor α → Prop
  | .ok a c' => ∃ w, c.Reads w c' ∧ L w a c'.head.token
  | .error e _ =>
    e.isRejection = true ∨
      e.isUnfinished = true ∧ ∃ v a, L (c.rest.map Lexeme.flat ++ v) a .eof

/-- The reader `p` goes on with a word of `L` of which `w` was taken from `c` on. -/
structure After (p : Parser α) (c : Cursor) (w : List Lexeme) (L : Language α) : Prop where
  /-- what was taken is the start of a word -/
  completes : ∃ v a, L (w ++ v) a .eof
  /-- the outcome is right wherever the reader goes on -/
  fulfils : ∀ c', c.Reads w c' → Fulfils c L (p.run c')

/-- The reader `p` takes words of `L` from sources of at most `n` tokens. -/
def Recognizes (n : Nat) (p : Parser α) (L : Language α) : Prop :=
  ∀ c : Cursor, c.Within n → After p c [] L

variable {c : Cursor} {w : List Lexeme} {L : Language α} {K : Language β} {n : Nat}

theorem Recognizes.mono {p : Parser α} {m : Nat} (h : Recognizes n p L) (hm : m ≤ n) :
    Recognizes m p L :=
  fun c hc => h c (hc.mono hm)

/-- Every recognized language has a word. -/
theorem Recognizes.exists_word {p : Parser α} (h : Recognizes n p L) : ∃ v a, L v a .eof :=
  (h ⟨[], ⟨0, 0⟩, ⟨0, 0⟩⟩ ⟨Nat.zero_le n, fun _ hl => nomatch hl⟩).completes

/-- A refusal of the token under the cursor: the source is unfinished only at its end. -/
theorem Fulfils.refusal {c' : Cursor} {expected : String} (hc : c.Within n) (h : c.Reads w c')
    (hw : ∃ v a, L (w ++ v) a .eof) (c'' : Cursor) :
    Fulfils c L (.error (c'.head.refusal expected) c'') := by
  by_cases he : c'.head.token = .eof
  · refine .inr ⟨Lexeme.refusal_of_eof he expected, ?_⟩
    have hc' : c'.Within n := hc.add.of_reads h
    rwa [h.flat_eq, hc'.rest_eq_nil he, List.map_nil, List.append_nil]
  · exact .inl (Lexeme.refusal_of_ne_eof he expected)

theorem After.refusal {expected : String} (hc : c.Within n) (hw : ∃ v a, L (w ++ v) a .eof) :
    After (failHere expected) c w L :=
  ⟨hw, fun c' h => by rw [run_failHere]; exact .refusal hc h hw c'⟩

theorem After.pure {a : α} (h : ∀ t, L w a t) : After (pure a) c w L where
  completes := ⟨[], a, by rw [List.append_nil]; exact h _⟩
  fulfils := fun c' hc => ⟨w, hc, h _⟩

/-- The outcome of a sequence: `hw` completes the word if the first reader stops at the end. -/
theorem Fulfils.bind {p : Parser α} {f : α → Parser β} {c' : Cursor} (h : c.Reads w c')
    (hp : Fulfils c' L (p.run c'))
    (hf : ∀ a v c'', c'.Reads v c'' → L v a c''.head.token → Fulfils c K ((f a).run c''))
    (hw : ∀ a v, L (c'.rest.map Lexeme.flat ++ v) a .eof →
      ∃ u b, K (w ++ (c'.rest.map Lexeme.flat ++ v ++ u)) b .eof) :
    Fulfils c K ((p >>= f).run c') := by
  rw [run_bind]
  rcases hr : p.run c' with ⟨a, c''⟩ | ⟨e, c''⟩
  · rw [hr] at hp
    obtain ⟨v, hv, ha⟩ := hp
    exact hf a v c'' hv ha
  · rw [hr] at hp
    rcases hp with he | ⟨he, v, a, ha⟩
    · exact .inl he
    · obtain ⟨u, b, hb⟩ := hw a v ha
      exact .inr ⟨he, v ++ u, b, by simpa [h.flat_eq] using hb⟩

/-- A reader goes on where another one stopped. The second reader may depend on the token under the
cursor; `hw` completes the word if the first reader cannot. -/
theorem After.bindAhead {p : Parser α} {f : α → Parser β} (hp : Recognizes n p L)
    (hc : c.Within (n + w.length))
    (hf : ∀ a v c', c.Reads (w ++ v) c' → L v a c'.head.token → Fulfils c K ((f a).run c'))
    (hw : ∀ a v, L v a .eof → ∃ u b, K (w ++ (v ++ u)) b .eof) :
    After (p >>= f) c w K := by
  constructor
  · obtain ⟨v, a, ha⟩ := hp.exists_word
    obtain ⟨u, b, hb⟩ := hw a v ha
    exact ⟨v ++ u, b, hb⟩
  · intro c' h
    exact .bind h ((hp c' (hc.of_reads h)).fulfils c' (.refl c'))
      (fun a v c'' hv ha => hf a v c'' (h.trans hv) ha) fun a v ha => hw a _ ha

/-- A reader goes on where another one stopped. -/
theorem After.bind {p : Parser α} {f : α → Parser β} (hp : Recognizes n p L)
    (hc : c.Within (n + w.length)) (hf : ∀ a v t, L v a t → After (f a) c (w ++ v) K) :
    After (p >>= f) c w K := by
  refine .bindAhead hp hc (fun a v c' hr ha => (hf a v _ ha).fulfils c' hr) fun a v ha => ?_
  obtain ⟨u, b, hb⟩ := (hf a v _ ha).completes
  exact ⟨u, b, by rwa [← List.append_assoc]⟩

/-- The result of a reader is changed at the end; the next token is the same. -/
theorem After.bindPure {p : Parser α} {g : α → β} (hp : Recognizes n p L)
    (hc : c.Within (n + w.length)) (hK : ∀ a v t, L v a t → K (w ++ v) (g a) t) :
    After (p >>= fun a => Pure.pure (g a)) c w K :=
  .bindAhead hp hc (fun a v c' hr ha => ⟨w ++ v, hr, hK a v _ ha⟩) fun a v ha =>
    ⟨[], g a, by rw [List.append_nil]; exact hK a v _ ha⟩

/-- A reader comes last. -/
theorem After.last {p : Parser α} {K : Language α} (hp : Recognizes n p L)
    (hc : c.Within (n + w.length)) (hK : ∀ a v t, L v a t → K (w ++ v) a t) : After p c w K := by
  rw [← bind_pure p]
  exact .bindPure hp hc hK

/-! ## Single tokens -/

/-- One token is taken if `accept` yields a result for it, and refused otherwise. -/
theorem After.take {p : Parser α} {f : α → Parser β} {l : Lexeme} {a : α}
    (expected : String) (accept : Lexeme → Option α)
    (hp : ∀ c', p.run c' =
      match accept c'.head with
      | some a => .ok a c'.tail
      | none => .error (c'.head.refusal expected) c')
    (hl : accept l = some a) (he : ∀ l, l.token = .eof → accept l = none) (hc : c.Within n)
    (hf : ∀ l a, accept l = some a → After (f a) c (w ++ [l.flat]) K) :
    After (p >>= f) c w K := by
  have hw : ∃ v b, K (w ++ v) b .eof := by
    obtain ⟨v, b, hb⟩ := (hf l a hl).completes
    exact ⟨l.flat :: v, b, by simpa using hb⟩
  refine ⟨hw, fun c' h => ?_⟩
  rw [run_bind, hp]
  rcases ha : accept c'.head with _ | a
  · exact .refusal hc h hw c'
  · have ht : c'.head.token ≠ .eof := fun ht => by simp [he _ ht] at ha
    exact (hf c'.head a ha).fulfils c'.tail (h.trans (.head ht))

/-- A mark is expected. -/
theorem After.expect {mark : Token} {expected : String} {f : Lexeme → Parser β}
    (hm : mark.isMark = true) (hc : c.Within n)
    (hf : ∀ l : Lexeme, l.token.flat = mark → After (f l) c (w ++ [⟨mark, l.span⟩]) K) :
    After (expect mark expected >>= f) c w K := by
  refine .take (l := ⟨mark, ⟨0, 0⟩⟩) (a := ⟨mark, ⟨0, 0⟩⟩) expected
    (fun l => if l.token.sameKind mark then some l else none) (fun c' => ?_)
    (by simp [Token.sameKind]) (fun l hl => ?_) hc fun l a ha => ?_
  · rw [run_expect]
    by_cases hk : c'.head.token.sameKind mark = true <;> simp [hk]
  · exact if_neg fun hk => Token.ne_eof_of_sameKind hm hk hl
  · obtain ⟨hk, rfl⟩ := Option.ite_none_right_eq_some.mp ha |>.imp_right Option.some.inj
    have hflat := Token.flat_of_sameKind hm hk
    simpa only [Lexeme.flat, hflat] using hf l hflat

/-- The name that an identifier is. -/
def identOf? : Lexeme → Option Name
  | ⟨.ident text, s⟩ => some ⟨text, s⟩
  | _ => none

/-- The name that the name of a type is. -/
def typeNameOf? : Lexeme → Option Name
  | ⟨.typeName text, s⟩ => some ⟨text, s⟩
  | _ => none

/-- An identifier is expected. -/
theorem After.expectIdent {expected : String} {f : Name → Parser β} (hc : c.Within n)
    (hf : ∀ text s, After (f ⟨text, s⟩) c (w ++ [⟨.ident text, s⟩]) K) :
    After (expectIdent expected >>= f) c w K := by
  refine .take (l := ⟨.ident "x", ⟨0, 0⟩⟩) (a := ⟨"x", ⟨0, 0⟩⟩) expected identOf?
    (fun c' => ?_) rfl (fun l hl => ?_) hc fun l a ha => ?_
  · rw [run_expectIdent]
    rcases c'.head with ⟨t, s⟩
    cases t <;> rfl
  · rcases l with ⟨t, s⟩
    cases hl
    rfl
  · rcases l with ⟨t, s⟩
    cases t <;> cases ha
    exact hf _ s

/-- The name of a type is expected. -/
theorem After.expectTypeName {expected : String} {f : Name → Parser β} (hc : c.Within n)
    (hf : ∀ text s, After (f ⟨text, s⟩) c (w ++ [⟨.typeName text, s⟩]) K) :
    After (expectTypeName expected >>= f) c w K := by
  refine .take (l := ⟨.typeName "int", ⟨0, 0⟩⟩) (a := ⟨"int", ⟨0, 0⟩⟩) expected typeNameOf?
    (fun c' => ?_) rfl (fun l hl => ?_) hc fun l a ha => ?_
  · rw [run_expectTypeName]
    rcases c'.head with ⟨t, s⟩
    cases t <;> rfl
  · rcases l with ⟨t, s⟩
    cases hl
    rfl
  · rcases l with ⟨t, s⟩
    cases t <;> cases ha
    exact hf _ s

/-- A token is taken, and what follows depends on it: a token that cannot stand here is rejected. -/
theorem After.advance {f : Lexeme → Parser β} (hc : c.Within n)
    (hw : ∃ v b, K (w ++ v) b .eof)
    (he : ∀ l c', l.token = .eof → ∃ e c'', (f l).run c' = .error e c'' ∧ e.isUnfinished = true)
    (hf : ∀ l : Lexeme, l.token ≠ .eof → After (f l) c (w ++ [l.flat]) K ∨
      ∀ c', ∃ e c'', (f l).run c' = .error e c'' ∧ e.isRejection = true) :
    After (advance >>= f) c w K := by
  refine ⟨hw, fun c' h => ?_⟩
  rw [run_bind, run_advance]
  by_cases ht : c'.head.token = .eof
  · obtain ⟨e, c'', hr, hu⟩ := he c'.head c'.tail ht
    have hc' : c'.Within n := hc.add.of_reads h
    simp only [hr]
    exact .inr ⟨hu, by rwa [h.flat_eq, hc'.rest_eq_nil ht, List.map_nil, List.append_nil]⟩
  · rcases hf c'.head ht with hf | hf
    · exact hf.fulfils c'.tail (h.trans (Cursor.Reads.head ht))
    · obtain ⟨e, c'', hr, hj⟩ := hf c'.tail
      simp only [hr]
      exact .inl hj

/-! ## Choices -/

/-- A choice by the next token, which is taken if it is the given mark. -/
theorem After.ifEat {mark : Token} {p q : Parser β} (hm : mark.isMark = true)
    (hp : ∀ s, After p c (w ++ [⟨mark, s⟩]) K) (hq : After q c w K) :
    After (eat mark >>= fun b => if b = true then p else q) c w K := by
  refine ⟨hq.completes, fun c' h => ?_⟩
  rw [run_bind, run_eat]
  by_cases hk : c'.head.token.sameKind mark = true
  · simp only [hk, if_true]
    refine (hp c'.head.span).fulfils c'.tail (h.trans ?_)
    simpa only [Lexeme.flat, Token.flat_of_sameKind hm hk] using
      Cursor.Reads.head (Token.ne_eof_of_sameKind hm hk)
  · simp only [hk, if_false, Bool.false_eq_true]
    exact hq.fulfils c' h

/-- A choice by the next token, which is taken if it is the given bracket, depth included. -/
theorem After.ifEatExact {token : Token} {p q : Parser β} (ht : token ≠ .eof)
    (hp : ∀ s, After p c (w ++ [⟨token.flat, s⟩]) K) (hq : After q c w K) :
    After (eatExact token >>= fun b => if b = true then p else q) c w K := by
  refine ⟨hq.completes, fun c' h => ?_⟩
  rw [run_bind, run_eatExact]
  by_cases hk : c'.head.token = token
  · simp only [hk, if_true]
    refine (hp c'.head.span).fulfils c'.tail (h.trans ?_)
    simpa only [Lexeme.flat, hk] using Cursor.Reads.head (c := c') (by rwa [hk])
  · simp only [hk, if_false, Bool.false_eq_true]
    exact hq.fulfils c' h

/-- A choice by the next token, which stays. -/
theorem After.ifCheck {mark : Token} {p q : Parser β}
    (hp : ∀ c', c.Reads w c' → c'.head.token.sameKind mark = true → Fulfils c K (p.run c'))
    (hq : After q c w K) :
    After (check mark >>= fun b => if b = true then p else q) c w K := by
  refine ⟨hq.completes, fun c' h => ?_⟩
  rw [run_bind, run_check]
  by_cases hk : c'.head.token.sameKind mark = true
  · simp only [hk, if_true]
    exact hp c' h hk
  · simp only [hk, if_false, Bool.false_eq_true]
    exact hq.fulfils c' h

/-- A choice by whether the source ends here. -/
theorem After.ifAtEnd {p q : Parser β} (hc : c.Within n)
    (hp : ∀ c', c.Reads w c' → c'.rest = [] → Fulfils c K (p.run c')) (hq : After q c w K) :
    After (atEnd >>= fun b => if b = true then p else q) c w K := by
  refine ⟨hq.completes, fun c' h => ?_⟩
  rw [run_bind, run_atEnd]
  by_cases hk : c'.head.token = .eof
  · have hc' : c'.Within n := hc.add.of_reads h
    simp only [hk, beq_self_eq_true, if_true]
    exact hp c' h (hc'.rest_eq_nil hk)
  · simp only [beq_eq_false_iff_ne.mpr hk, if_false, Bool.false_eq_true]
    exact hq.fulfils c' h

/-- The source must not end here. -/
theorem After.unlessEnd {e : SourceError} {q : Parser β} (hc : c.Within n)
    (he : e.isUnfinished = true) (hq : After q c w K) :
    After (atEnd >>= fun b => if b = true then throw e else q) c w K := by
  refine .ifAtEnd hc (fun c' h hr => .inr ⟨he, ?_⟩) hq
  rw [h.flat_eq, hr, List.map_nil, List.append_nil]
  exact hq.completes

/-- A choice by the next token, which is taken and handed on if it is the given mark. -/
theorem After.eat? {mark : Token} {f : Option Lexeme → Parser β} (hm : mark.isMark = true)
    (hp : ∀ l : Lexeme, l.token.flat = mark → After (f (some l)) c (w ++ [⟨mark, l.span⟩]) K)
    (hq : After (f none) c w K) :
    After (eat? mark >>= f) c w K := by
  refine ⟨hq.completes, fun c' h => ?_⟩
  rw [run_bind, run_eat?]
  by_cases hk : c'.head.token.sameKind mark = true
  · have hflat := Token.flat_of_sameKind hm hk
    rw [if_pos hk]
    refine (hp c'.head hflat).fulfils c'.tail (h.trans ?_)
    simpa only [Lexeme.flat, hflat] using Cursor.Reads.head (Token.ne_eof_of_sameKind hm hk)
  · rw [if_neg hk]
    exact hq.fulfils c' h

/-- The place of what was taken so far is used. -/
theorem After.spanFrom {start : Span} {f : Span → Parser β}
    (hw : w.head?.map Lexeme.span = some start) (hf : After (f (cover w)) c w K) :
    After (spanFrom start >>= f) c w K := by
  refine ⟨hf.completes, fun c' h => ?_⟩
  rw [run_bind, run_spanFrom, h.merge_last hw]
  exact hf.fulfils c' h

end Parser

end ScriptGraph
