import ScriptGraph.Proofs.Parsing.Recognition
import ScriptGraph.Proofs.Token.Nesting

/-!
# Words of the grammar are read

The readers take every word of the grammar whose brackets have their depths, and yield the tree that it
was derived with (`ItemsDerived.run_program`). A reader stops where the word ends only if the next token
does not go on with it:

* an expression ends before a token that is no operator. `Resumes` says where the reader of a stratum
  stands behind a word: it waits for an operator, because a longer word may start with this one;
* a statement that ends in an `if` without `else` ends before a token other than `else`.

A word is *balanced*: it leaves as many brackets open as it found, so the closing bracket behind it has
the depth of the opening bracket before it.
-/

namespace ScriptGraph

/-! ## Words are balanced -/

/-- A word closes the brackets that it opens, and no end mark stands in it. -/
structure Balanced (w : List Lexeme) : Prop where
  /-- as many brackets are open behind it as before it -/
  after_eq : ∀ d : Depths, d.after w = d
  /-- it holds no end mark -/
  ne_eof : ∀ l ∈ w, l.token ≠ .eof

namespace Balanced

variable {u v w : List Lexeme}

theorem nil : Balanced [] :=
  ⟨fun _ => rfl, nofun⟩

theorem append (hu : Balanced u) (hv : Balanced v) : Balanced (u ++ v) where
  after_eq := fun d => by rw [Depths.after_append, hu.after_eq, hv.after_eq]
  ne_eof := fun l hl => (List.mem_append.mp hl).elim (hu.ne_eof l) (hv.ne_eof l)

/-- A token that is no bracket goes before a word. -/
theorem cons {l : Lexeme} (hd : l.token.depth? = none) (he : l.token ≠ .eof) (h : Balanced w) :
    Balanced (l :: w) where
  after_eq := fun d => by
    have hn : d.next l.token = d := by
      cases ht : l.token <;> first | rfl | (rw [ht] at hd; cases hd)
    rw [Depths.after, hn, h.after_eq]
  ne_eof := List.forall_mem_cons.mpr ⟨he, h.ne_eof⟩

/-- A word stands in brackets before another one. -/
theorem enclose {o c : Lexeme} (hd : ∀ d : Depths, (d.next o.token).next c.token = d)
    (ho : o.token ≠ .eof) (hc : c.token ≠ .eof) (hu : Balanced u) (hv : Balanced v) :
    Balanced (o :: u ++ c :: v) where
  after_eq := fun d => by
    rw [Depths.after_append, Depths.after, Depths.after, hu.after_eq, hd, hv.after_eq]
  ne_eof := by
    simpa [or_imp, forall_and, ho, hc] using And.intro hu.ne_eof hv.ne_eof

theorem parens {o c : Span} (hu : Balanced u) (hv : Balanced v) :
    Balanced (⟨.lparen 0, o⟩ :: u ++ ⟨.rparen 0, c⟩ :: v) :=
  hu.enclose (fun d => by simp [Depths.next]) nofun nofun hv

theorem braces {o c : Span} (hu : Balanced u) (hv : Balanced v) :
    Balanced (⟨.lbrace 0, o⟩ :: u ++ ⟨.rbrace 0, c⟩ :: v) :=
  hu.enclose (fun d => by simp [Depths.next]) nofun nofun hv

end Balanced

/-- Different strata have no operator in common. -/
theorem Stratum.pairwise_all :
    Stratum.all.Pairwise fun s s' => ∀ t op, s t = some op → s' t = none := by
  simp only [Stratum.all, List.pairwise_cons, List.mem_cons, List.not_mem_nil, or_false,
    List.Pairwise.nil, and_true]
  refine ⟨?_, ?_, ?_, ?_, ?_, ?_, fun s hs => hs.elim⟩
  all_goals
    rintro s hs t op ht
    repeat' rcases hs with rfl | hs
    all_goals cases t <;> first | rfl | cases ht

mutual

theorem ExprDerived.balanced {strata : List Stratum} {w : List Lexeme} {e : Expr}
    (hs : strata <:+ Stratum.all) : ExprDerived strata w e → Balanced w
  | .operand h => h.balanced ((List.suffix_cons ..).trans hs)
  | .binary hl ho hr => by
    have hmem := hs.subset (List.mem_cons_self ..)
    have hm := Token.ne_eof_of_isMark (Stratum.isMark_of_mem hmem ho)
    exact (hl.balanced hs).append
      (.cons (Stratum.depth?_of_mem hmem ho) hm (hr.balanced ((List.suffix_cons ..).trans hs)))
  | .number _ => .cons rfl nofun .nil
  | .fraction _ => .cons rfl nofun (.cons rfl nofun .nil)
  | .group h => (h.balanced (List.suffix_refl _)).parens .nil
  | .var => .cons rfl nofun .nil
  | .neg h => .cons rfl nofun (h.balanced hs)
  | .not h => .cons rfl nofun (h.balanced hs)
  | .construct h => .cons rfl nofun (.cons rfl nofun (h.balanced.parens .nil))
  | .call h => .cons rfl nofun (.cons rfl nofun (.cons rfl nofun (h.balanced.parens .nil)))

theorem ArgListDerived.balanced {w : List Lexeme} {es : List Expr} : ArgListDerived w es → Balanced w
  | .one h => h.balanced (List.suffix_refl _)
  | .more h hs => (h.balanced (List.suffix_refl _)).append (.cons rfl nofun hs.balanced)

theorem ArgsDerived.balanced {w : List Lexeme} {es : List Expr} : ArgsDerived w es → Balanced w
  | .none => .nil
  | .some h => h.balanced
  | .trailing h => h.balanced.append (.cons rfl nofun .nil)

end

/-- The tokens of assignment operators are no brackets. -/
theorem AssignOp.balanced {op : AssignOp} {marks : List Lexeme}
    (h : marks.map Lexeme.token = op.tokens) : Balanced marks := by
  have hplain : ∀ t ∈ op.tokens, t.depth? = none ∧ t ≠ .eof := by
    cases op <;> simp [AssignOp.tokens, Token.depth?]
  rw [← h] at hplain
  clear h
  induction marks with
  | nil => exact .nil
  | cons l marks ih =>
    obtain ⟨⟨hd, he⟩, hplain⟩ := List.forall_mem_cons.mp hplain
    exact .cons hd he (ih hplain)

mutual

theorem StmtDerived.balanced {isOpen : Bool} {w : List Lexeme} {s : Stmt} :
    StmtDerived ArgsDerived isOpen w s → Balanced w
  | .declare hw => hw ▸ .cons rfl nofun (.cons rfl nofun (.cons rfl nofun .nil))
  | .declareAs hv hw => hw ▸ .cons rfl nofun (.cons rfl nofun (.cons rfl nofun
      ((hv.balanced (List.suffix_refl _)).append (.cons rfl nofun .nil))))
  | .publish hw => hw ▸ .cons rfl nofun (.cons rfl nofun (.cons rfl nofun (.cons rfl nofun .nil)))
  | .step _ hm hw => hw ▸ .cons rfl nofun ((AssignOp.balanced hm).append (.cons rfl nofun .nil))
  | .assign _ hm hv hw => by
    subst hw
    exact .append (.append (.cons rfl nofun (AssignOp.balanced hm))
      (hv.balanced (List.suffix_refl _))) (.cons rfl nofun .nil)
  | .call ha hw => hw ▸ .cons rfl nofun (.cons rfl nofun (.cons rfl nofun
      (ha.balanced.parens (.cons rfl nofun .nil))))
  | .ret ha hw => hw ▸ .cons rfl nofun (ha.balanced.parens (.cons rfl nofun .nil))
  | .choose ht hb hw => hw ▸ .cons rfl nofun ((ht.balanced (List.suffix_refl _)).parens hb.balanced)
  | .chooseElse ht hb he hw => by
    subst hw
    exact .append (.cons rfl nofun ((ht.balanced (List.suffix_refl _)).parens hb.balanced))
      (.cons rfl nofun he.balanced)

theorem BranchDerived.balanced {isOpen : Bool} {w : List Lexeme} {body : List Stmt} :
    BranchDerived ArgsDerived isOpen w body → Balanced w
  | .block h => h.balanced.braces .nil
  | .single h => h.balanced

theorem BodyDerived.balanced {w : List Lexeme} {body : List Stmt} :
    BodyDerived ArgsDerived w body → Balanced w
  | .nil => .nil
  | .cons h hs => h.balanced.append hs.balanced

end

/-! ## Taking a word -/

/-- The first of some tokens, the end mark if there are none. -/
def firstToken : List Lexeme → Token
  | [] => .eof
  | l :: _ => l.token

theorem Cursor.token_head (r : List Lexeme) (stop last : Span) :
    (⟨r, stop, last⟩ : Cursor).head.token = firstToken r := by
  cases r <;> rfl

namespace Parser

variable {α : Type}

/-- The reader `p` takes the word `w` for `a` before the tokens `r`, where `d` brackets are open. -/
def Takes (p : Parser α) (d : Depths) (w : List Lexeme) (a : α) (r : List Lexeme) : Prop :=
  ∀ stop last, p.run ⟨d.assign w ++ r, stop, last⟩ = .ok a ⟨r, stop, spanAfter last w⟩

/-- Reads what remains of an expression behind the operands so far. -/
def resume (n : Nat) : List Stratum → Nat → Expr → Parser Expr
  | [], _, e => pure e
  | stratum :: strata, m, e =>
    chainFrom stratum (strata.foldr (chain n) (factor eatExact n)) m e

theorem run_resume {n m : Nat} {strata : List Stratum} {r : List Lexeme}
    (hr : ∀ stratum ∈ strata, stratum (firstToken r) = none) (e : Expr) (stop last : Span) :
    (resume n strata m e).run ⟨r, stop, last⟩ = .ok e ⟨r, stop, last⟩ := by
  cases strata with
  | nil => rfl
  | cons stratum strata =>
    cases m with
    | zero => rfl
    | succ m => simp [resume, chainFrom, Cursor.token_head, hr stratum]

/-- The readers of some strata take a word and stand where more operands may follow. -/
def Resumes (n : Nat) (strata : List Stratum) (d : Depths) (w : List Lexeme) (e : Expr)
    (r : List Lexeme) : Prop :=
  ∃ m, r.length ≤ m ∧ ∀ stop last,
    (strata.foldr (chain n) (factor eatExact n)).run ⟨d.assign w ++ r, stop, last⟩ =
      (resume n strata m e).run ⟨r, stop, spanAfter last w⟩

theorem Resumes.takes {n : Nat} {strata : List Stratum} {d : Depths} {w r : List Lexeme} {e : Expr}
    (h : Resumes n strata d w e r) (hr : ∀ stratum ∈ strata, stratum (firstToken r) = none) :
    Takes (strata.foldr (chain n) (factor eatExact n)) d w e r := by
  obtain ⟨m, -, h⟩ := h
  intro stop last
  rw [h, run_resume hr]

theorem Takes.resumes {n : Nat} {d : Depths} {w r : List Lexeme} {e : Expr}
    (h : Takes (factor eatExact n) d w e r) : Resumes n [] d w e r :=
  ⟨r.length, Nat.le_refl _, h⟩

theorem Resumes.operand {n : Nat} {stratum : Stratum} {strata : List Stratum} {d : Depths}
    {w r : List Lexeme} {e : Expr} (hn : w.length + r.length ≤ n)
    (h : Takes (strata.foldr (chain n) (factor eatExact n)) d w e r) :
    Resumes n (stratum :: strata) d w e r := by
  refine ⟨n, by omega, fun stop last => ?_⟩
  rw [List.foldr_cons, chain, run_bind, h stop last]
  rfl

theorem Resumes.binary {n : Nat} {stratum : Stratum} {strata : List Stratum} {d : Depths}
    {u v r : List Lexeme} {left right : Expr} {mark : Lexeme} {op : BinaryOp}
    (hu : d.after u = d) (hm : mark.token.depth? = none) (ho : stratum mark.token = some op)
    (hl : Resumes n (stratum :: strata) d u left (mark :: d.assign v ++ r))
    (hr : Takes (strata.foldr (chain n) (factor eatExact n)) d v right r) :
    Resumes n (stratum :: strata) d (u ++ mark :: v) (.binary op left right) r := by
  obtain ⟨m, hlen, hl⟩ := hl
  obtain ⟨m, rfl⟩ : ∃ k, m = k + 1 := ⟨m - 1, by simp at hlen; omega⟩
  refine ⟨m, by simp at hlen; omega, fun stop last => ?_⟩
  have hw : d.assign (u ++ mark :: v) ++ r = d.assign u ++ (mark :: d.assign v ++ r) := by
    simp [Depths.assign_append, hu, Depths.mark_of_depth? d hm, Depths.next_of_depth? d hm]
  rw [hw, hl, resume, chainFrom]
  simp [ho, hr _ _, resume]

/-! ## Factors -/

variable {n : Nat} {d : Depths} {w r : List Lexeme} {e : Expr} {es : List Expr}

theorem Takes.group {o c : Span} (hw : Balanced w)
    (h : Takes (strata n (factor eatExact n)) ⟨d.braces, d.parens + 1⟩ w e
      (⟨.rparen d.parens, c⟩ :: r)) :
    Takes (factor eatExact (n + 1)) d (⟨.lparen 0, o⟩ :: w ++ [⟨.rparen 0, c⟩]) e r := by
  intro stop last
  simp [factor, closeParen, Depths.assign_append, Depths.mark, Depths.next, hw.after_eq, Token.depth?,
    h stop o]

theorem Takes.neg {s : Span} (h : Takes (factor eatExact n) d w e r) :
    Takes (factor eatExact (n + 1)) d (⟨.minus, s⟩ :: w) (.neg e) r := by
  intro stop last
  simp [factor, Depths.mark, Depths.next, h stop s]

theorem Takes.not {s : Span} (h : Takes (factor eatExact n) d w e r) :
    Takes (factor eatExact (n + 1)) d (⟨.bang, s⟩ :: w) (.not e) r := by
  intro stop last
  simp [factor, Depths.mark, Depths.next, h stop s]

theorem Takes.construct {type : String} {s t o : Span}
    (h : Takes (arguments eatExact (strata n (factor eatExact n)) ⟨.lparen d.parens, o⟩ n)
      ⟨d.braces, d.parens + 1⟩ w es r) :
    Takes (factor eatExact (n + 1)) d (⟨.keyNew, s⟩ :: ⟨.typeName type, t⟩ :: ⟨.lparen 0, o⟩ :: w)
      (.construct ⟨type, t⟩ es) r := by
  intro stop last
  simp [factor, Depths.mark, Depths.next, h stop o, Token.sameKind, Token.bare]

theorem Takes.callTail {expression : Parser Expr} {member : String} {k m o : Span}
    (h : Takes (arguments eatExact expression ⟨.lparen d.parens, o⟩ n)
      ⟨d.braces, d.parens + 1⟩ w es r) :
    Takes (callTail eatExact n expression) d (⟨.dot, k⟩ :: ⟨.ident member, m⟩ :: ⟨.lparen 0, o⟩ :: w)
      (⟨member, m⟩, es) r := by
  intro stop last
  simp [Parser.callTail, Depths.mark, Depths.next, h stop o, Token.sameKind, Token.bare]

theorem Takes.call {receiver : String} {member : Name} {s : Span}
    (h : Takes (Parser.callTail eatExact n (strata n (factor eatExact n))) d w (member, es) r) :
    Takes (factor eatExact (n + 1)) d (⟨.qualifier receiver, s⟩ :: w)
      (.call ⟨receiver, s⟩ member es) r := by
  intro stop last
  simp [factor, Depths.mark, Depths.next, h stop s]

/-! ## Arguments -/

theorem Takes.noArguments {expression : Parser Expr} {k : Int} {o c : Span} (hd : d.parens = k + 1) :
    Takes (arguments eatExact expression ⟨.lparen k, o⟩ (n + 1)) d [⟨.rparen 0, c⟩] [] r := by
  intro stop last
  simp [arguments, Depths.mark, hd, Token.depth?]

/-- An argument is read where no closing parenthesis stands. -/
theorem run_arguments_of_starts {expression : Parser Expr} {opening : Lexeme}
    (hs : ∃ l v, w = l :: v ∧ l.token.startsExpr = true) (stop last : Span) :
    (arguments eatExact expression opening (n + 1)).run ⟨d.assign w ++ r, stop, last⟩ =
      (do
        let arg ← expression
        unless ← check (.rparen 0) do
          discard (expect .comma "',' or ')'")
        let args ← arguments eatExact expression opening n
        return arg :: args).run ⟨d.assign w ++ r, stop, last⟩ := by
  obtain ⟨l, v, rfl, hs⟩ := hs
  have hm : ∀ t : Token, t.startsExpr = false → d.mark l.token ≠ t := by
    rintro t ht rfl
    cases h : l.token <;> rw [h] at hs ht <;> cases hs <;> cases ht
  rw [arguments, run_bind, run_eatExact]
  simp [hm (.rparen _) rfl, hm .eof rfl]

theorem Takes.lastArgument {expression : Parser Expr} {k : Int} {o c : Span} (hd : d.parens = k + 1)
    (hw : Balanced w) (hs : ∃ l v, w = l :: v ∧ l.token.startsExpr = true)
    (h : Takes expression d w e (⟨.rparen k, c⟩ :: r)) :
    Takes (arguments eatExact expression ⟨.lparen k, o⟩ (n + 2)) d (w ++ [⟨.rparen 0, c⟩]) [e] r := by
  intro stop last
  have hr : d.assign (w ++ [⟨.rparen 0, c⟩]) ++ r = d.assign w ++ ⟨.rparen k, c⟩ :: r := by
    simp [Depths.assign_append, hw.after_eq, Depths.mark, hd]
  rw [hr, run_arguments_of_starts hs, run_bind, h]
  simp [Token.sameKind, Token.bare, arguments, Token.depth?]

theorem Takes.moreArguments {expression : Parser Expr} {opening : Lexeme} {u v : List Lexeme} {k : Span}
    (hu : Balanced u) (hs : ∃ l v, u = l :: v ∧ l.token.startsExpr = true)
    (h : Takes expression d u e (⟨.comma, k⟩ :: d.assign v ++ r))
    (hv : Takes (arguments eatExact expression opening n) d v es r) :
    Takes (arguments eatExact expression opening (n + 1)) d (u ++ ⟨.comma, k⟩ :: v) (e :: es) r := by
  intro stop last
  have hr : d.assign (u ++ ⟨.comma, k⟩ :: v) ++ r = d.assign u ++ (⟨.comma, k⟩ :: d.assign v ++ r) := by
    simp [Depths.assign_append, hu.after_eq, Depths.mark, Depths.next]
  rw [hr, run_arguments_of_starts hs, run_bind, h]
  simp [Token.sameKind, Token.bare, hv stop k]

end Parser

open ScriptGraph.Parser

theorem Stratum.eq_none_of_suffix {stratum : Stratum} {strata : List Stratum} {t : Token} {op : BinaryOp}
    (hs : stratum :: strata <:+ Stratum.all) (ho : stratum t = some op) :
    ∀ s ∈ strata, s t = none := by
  have hp := Stratum.pairwise_all.sublist hs.sublist
  exact fun s hmem => List.rel_of_pairwise_cons hp hmem t op ho

/-- Is a token an operator of some stratum? -/
def Token.isOperator (t : Token) : Bool :=
  Stratum.all.any fun stratum => (stratum t).isSome

theorem Stratum.eq_none_of_isOperator {t : Token} (h : t.isOperator = false) :
    ∀ stratum ∈ Stratum.all, stratum t = none := by
  simpa [Token.isOperator] using h

/-- An expression is read up to a token that is no operator. -/
theorem Parser.Takes.expression {w r : List Lexeme} {e : Expr} {n : Nat} {d : Depths}
    (hr : (firstToken r).isOperator = false)
    (h : (∀ stratum ∈ Stratum.all.tail, stratum (firstToken r) = none) →
      Resumes n Stratum.all d w e r) : Takes (expressionWithin eatExact n) d w e r := by
  have hnone := Stratum.eq_none_of_isOperator hr
  exact (h fun s hm => hnone s (List.mem_of_mem_tail hm)).takes hnone

mutual

theorem ExprDerived.resumes {strata : List Stratum} {w r : List Lexeme} {e : Expr} {n : Nat}
    (hs : strata <:+ Stratum.all) (d : Depths) (hn : w.length + r.length ≤ n)
    (hr : ∀ stratum ∈ strata.tail, stratum (firstToken r) = none) : ExprDerived strata w e →
    Resumes n strata d w e r
  | .operand h => .operand hn ((h.resumes ((List.suffix_cons ..).trans hs) d hn
      fun s hmem => hr s (List.mem_of_mem_tail hmem)).takes hr)
  | .binary hl ho hv => by
    have hss := (List.suffix_cons _ _).trans hs
    have hmem := hs.subset (List.mem_cons_self ..)
    refine .binary ((hl.balanced hs).after_eq d) (Stratum.depth?_of_mem hmem ho) ho ?_ ?_
    · exact hl.resumes hs d (by simp at hn ⊢; omega)
        (Stratum.eq_none_of_suffix hs ho)
    · exact (hv.resumes hss d (by simp at hn; omega) fun s hm => hr s (List.mem_of_mem_tail hm)).takes hr
  | .number hv => by
    obtain ⟨n, rfl⟩ : ∃ k, n = k + 1 := ⟨n - 1, by simp at hn; omega⟩
    refine Takes.resumes fun stop last => ?_
    simp [factor, Depths.mark, hv]
  | .fraction hv => by
    obtain ⟨n, rfl⟩ : ∃ k, n = k + 1 := ⟨n - 1, by simp at hn; omega⟩
    refine Takes.resumes fun stop last => ?_
    simp [factor, Depths.mark, hv]
  | .group h => by
    obtain ⟨n, rfl⟩ : ∃ k, n = k + 1 := ⟨n - 1, by simp at hn; omega⟩
    exact (Takes.group (h.balanced (List.suffix_refl _)) (.expression rfl
      fun hr => h.resumes (List.suffix_refl _) _ (by simp at hn ⊢; omega) hr)).resumes
  | .var => by
    obtain ⟨n, rfl⟩ : ∃ k, n = k + 1 := ⟨n - 1, by simp at hn; omega⟩
    refine Takes.resumes fun stop last => ?_
    simp [factor, Depths.mark]
  | .neg h => by
    obtain ⟨n, rfl⟩ : ∃ k, n = k + 1 := ⟨n - 1, by simp at hn; omega⟩
    exact ((h.resumes hs d (by simp at hn; omega) nofun).takes nofun).neg.resumes
  | .not h => by
    obtain ⟨n, rfl⟩ : ∃ k, n = k + 1 := ⟨n - 1, by simp at hn; omega⟩
    exact ((h.resumes hs d (by simp at hn; omega) nofun).takes nofun).not.resumes
  | .construct h => by
    obtain ⟨n, rfl⟩ : ∃ k, n = k + 1 := ⟨n - 1, by simp at hn; omega⟩
    exact (Takes.construct (h.takes rfl (by simp at hn; omega))).resumes
  | .call h => by
    obtain ⟨n, rfl⟩ : ∃ k, n = k + 1 := ⟨n - 1, by simp at hn; omega⟩
    exact (Takes.callTail (h.takes rfl (by simp at hn; omega))).call.resumes

/-- Arguments are read with their closing parenthesis and a comma before it, if there is one. -/
theorem ArgListDerived.takes {w t r : List Lexeme} {es : List Expr} {n m : Nat} {d : Depths} {k : Int}
    {o c : Span} (hd : d.parens = k + 1) (hm : w.length + t.length + 1 + r.length ≤ m) (hn : m ≤ n)
    (ht : t = [] ∨ ∃ s, t = [⟨.comma, s⟩]) : ArgListDerived w es →
    Takes (arguments eatExact (expressionWithin eatExact n) ⟨.lparen k, o⟩ m) d
      (w ++ t ++ [⟨.rparen 0, c⟩]) es r
  | .one h => by
    have hw := h.balanced (List.suffix_refl _)
    have hlen : 0 < w.length := by
      obtain ⟨l, v, rfl, -⟩ := h.starts
      exact Nat.succ_pos _
    obtain ⟨m, rfl⟩ : ∃ k, m = k + 2 := ⟨m - 2, by omega⟩
    rcases ht with rfl | ⟨s, rfl⟩
    · rw [List.append_nil]
      exact .lastArgument hd hw h.starts (.expression rfl
        fun hr => h.resumes (List.suffix_refl _) _ (by simp at hm ⊢; omega) hr)
    · rw [List.append_assoc]
      exact .moreArguments hw h.starts (.expression rfl
        fun hr => h.resumes (List.suffix_refl _) _ (by simp at hm ⊢; omega) hr) (.noArguments hd)
  | .more h hs => by
    have hw := h.balanced (List.suffix_refl _)
    obtain ⟨m, rfl⟩ : ∃ k, m = k + 1 := ⟨m - 1, by omega⟩
    rw [List.append_assoc, List.append_assoc, List.cons_append]
    refine .moreArguments hw h.starts (.expression rfl
      fun hr => h.resumes (List.suffix_refl _) _ (by simp at hm ⊢; omega) hr) ?_
    rw [← List.append_assoc]
    exact hs.takes hd (by simp at hm; omega) (by omega) ht

theorem ArgsDerived.takes {w r : List Lexeme} {es : List Expr} {n : Nat} {d : Depths} {k : Int}
    {o c : Span} (hd : d.parens = k + 1) (hn : w.length + 1 + r.length ≤ n) : ArgsDerived w es →
    Takes (arguments eatExact (expressionWithin eatExact n) ⟨.lparen k, o⟩ n) d
      (w ++ [⟨.rparen 0, c⟩]) es r
  | .none => by
    obtain ⟨n, rfl⟩ : ∃ k, n = k + 1 := ⟨n - 1, by omega⟩
    exact .noArguments hd
  | .some h => by
    simpa using h.takes (t := []) hd (by simpa using hn) (Nat.le_refl n) (.inl rfl)
  | .trailing h =>
    h.takes hd (by simpa using hn) (Nat.le_refl n) (.inr ⟨_, rfl⟩)

end

theorem ExprDerived.takes {w r : List Lexeme} {e : Expr} {n : Nat} {d : Depths}
    (hn : w.length + r.length ≤ n) (hr : (firstToken r).isOperator = false)
    (h : ExprDerived Stratum.all w e) : Takes (expressionWithin eatExact n) d w e r :=
  .expression hr fun hnone => h.resumes (List.suffix_refl _) d hn hnone

/-! ## Statements -/

/-- May a token stand first in a statement? -/
def Token.startsStmt : Token → Bool
  | .keyIf | .typeName _ | .keyPublic | .ident _ | .qualifier _ | .keyReturn => true
  | _ => false

/-- A statement has a first token, which can start one. -/
theorem StmtDerived.starts {Values : List Lexeme → List Expr → Prop} {isOpen : Bool} {w : List Lexeme}
    {s : Stmt} (h : StmtDerived Values isOpen w s) : ∃ l v, w = l :: v ∧ l.token.startsStmt = true := by
  cases h <;> (rename_i hw; subst hw; exact ⟨_, _, rfl, rfl⟩)

namespace Parser

variable {n : Nat} {d : Depths} {w r : List Lexeme}

theorem Takes.assignOp {op : AssignOp} {marks : List Lexeme} (h : marks.map Lexeme.token = op.tokens) :
    Takes assignOp d marks op r := by
  intro stop last
  rcases marks with _ | ⟨⟨t, s⟩, _ | ⟨⟨t', s'⟩, _ | ⟨l, marks⟩⟩⟩ <;> cases op <;> cases h <;>
    simp [Parser.assignOp, Depths.mark, Token.sameKind, Token.bare]

theorem Takes.declare {type name : String} {s t e : Span}
    (hw : w = [⟨.typeName type, s⟩, ⟨.ident name, t⟩, ⟨.semicolon, e⟩]) :
    Takes (statementWithin eatExact (n + 1)) d w (.declare ⟨type, ⟨name, t⟩, none, false⟩ (cover w)) r := by
  subst hw
  intro stop last
  simp [statementWithin, Depths.mark, Token.sameKind, Token.bare, cover]

theorem Takes.declareAs {v : List Lexeme} {type name : String} {init : Expr} {s t a e : Span}
    (h : Takes (expressionWithin eatExact n) d v init (⟨.semicolon, e⟩ :: r))
    (hw : w = ⟨.typeName type, s⟩ :: ⟨.ident name, t⟩ :: ⟨.assign, a⟩ :: v ++ [⟨.semicolon, e⟩]) :
    Takes (statementWithin eatExact (n + 1)) d w
      (.declare ⟨type, ⟨name, t⟩, some init, false⟩ (cover w)) r := by
  subst hw
  intro stop last
  simp [statementWithin, Depths.mark, Depths.next, Depths.assign_append, Token.sameKind, Token.bare,
    cover, h stop a]

theorem Takes.publish {type name : String} {s p t e : Span}
    (hw : w = [⟨.keyPublic, s⟩, ⟨.typeName type, p⟩, ⟨.ident name, t⟩, ⟨.semicolon, e⟩]) :
    Takes (statementWithin eatExact (n + 1)) d w (.declare ⟨type, ⟨name, t⟩, none, true⟩ (cover w)) r := by
  subst hw
  intro stop last
  simp [statementWithin, Depths.mark, Token.sameKind, Token.bare, cover]

theorem Takes.assign {marks v : List Lexeme} {name : String} {op : AssignOp} {value : Expr} {s e : Span}
    (hm : marks.map Lexeme.token = op.tokens)
    (h : Takes (assignValue eatExact n op) d v value (⟨.semicolon, e⟩ :: r))
    (hw : w = ⟨.ident name, s⟩ :: marks ++ v ++ [⟨.semicolon, e⟩]) :
    Takes (statementWithin eatExact (n + 1)) d w (.assign ⟨name, s⟩ op value (cover w)) r := by
  subst hw
  intro stop last
  have hop := Takes.assignOp (d := d) (r := d.assign v ++ ⟨.semicolon, e⟩ :: r) hm
  simp [statementWithin, Depths.mark, Depths.next, Depths.assign_append, (AssignOp.balanced hm).after_eq,
    Token.sameKind, Token.bare, cover, hop stop s, h stop]

theorem Takes.stepValue {op : AssignOp} (hs : op.isStep = true) :
    Takes (assignValue eatExact n op) d [] (.number 1) r := by
  cases op <;> first | exact fun _ _ => rfl | cases hs

theorem Takes.operandValue {op : AssignOp} {value : Expr} (hs : op.isStep = false)
    (h : Takes (expressionWithin eatExact n) d w value r) :
    Takes (assignValue eatExact n op) d w value r := by
  cases op <;> first | exact h | cases hs

theorem Takes.callStatement {a : List Lexeme} {args : List Expr} {receiver : String} {member : Name}
    {s e : Span}
    (h : Takes (Parser.callTail eatExact n (expressionWithin eatExact n)) d a (member, args)
      (⟨.semicolon, e⟩ :: r))
    (hw : w = ⟨.qualifier receiver, s⟩ :: a ++ [⟨.semicolon, e⟩]) :
    Takes (statementWithin eatExact (n + 1)) d w (.call ⟨receiver, s⟩ member args (cover w)) r := by
  subst hw
  intro stop last
  simp [statementWithin, Depths.mark, Depths.next, Depths.assign_append, Token.sameKind, Token.bare,
    cover, h stop s]

theorem Takes.ret {a : List Lexeme} {values : List Expr} {s o e : Span}
    (h : Takes (arguments eatExact (expressionWithin eatExact n) ⟨.lparen d.parens, o⟩ n)
      ⟨d.braces, d.parens + 1⟩ a values (⟨.semicolon, e⟩ :: r))
    (hw : w = ⟨.keyReturn, s⟩ :: ⟨.lparen 0, o⟩ :: a ++ [⟨.semicolon, e⟩]) :
    Takes (statementWithin eatExact (n + 1)) d w (.ret values (cover w)) r := by
  subst hw
  intro stop last
  simp [statementWithin, Depths.mark, Depths.next, Depths.assign_append, Token.sameKind, Token.bare,
    cover, h stop o]

/-! ## Choices -/

theorem Takes.emptyBlock {statement : Parser Stmt} {k : Int} {o c : Span} (hd : d.braces = k + 1) :
    Takes (block eatExact statement ⟨.lbrace k, o⟩ (n + 1)) d [⟨.rbrace 0, c⟩] [] r := by
  intro stop last
  simp [block, Depths.mark, hd, Token.depth?]

/-- A statement does not start with a token that cannot start one. -/
theorem ne_firstToken_of_starts {t : Token} (ht : t.startsStmt = false)
    (hs : ∃ l v, w = l :: v ∧ l.token.startsStmt = true) : firstToken (d.assign w ++ r) ≠ t := by
  obtain ⟨l, v, rfl, hs⟩ := hs
  rintro rfl
  cases h : l.token <;> simp [firstToken, h, Depths.mark] at hs ht <;> cases hs <;> cases ht

theorem Takes.blockCons {statement : Parser Stmt} {opening : Lexeme} {u v : List Lexeme} {s : Stmt}
    {body : List Stmt} (hu : Balanced u) (hs : ∃ l x, u = l :: x ∧ l.token.startsStmt = true)
    (h : Takes statement d u s (d.assign v ++ r))
    (hv : Takes (block eatExact statement opening n) d v body r) :
    Takes (block eatExact statement opening (n + 1)) d (u ++ v) (s :: body) r := by
  intro stop last
  rw [Depths.assign_append, hu.after_eq, List.append_assoc, block, run_bind, run_eatExact,
    Cursor.token_head]
  simp [ne_firstToken_of_starts (t := .rbrace _) rfl hs, Cursor.token_head,
    ne_firstToken_of_starts (t := .eof) rfl hs, h stop last, hv stop]

theorem Takes.blockBranch {statement : Parser Stmt} {o : Span} {body : List Stmt}
    (h : Takes (block eatExact statement ⟨.lbrace d.braces, o⟩ n) ⟨d.braces + 1, d.parens⟩ w body r) :
    Takes (branchBody eatExact n statement) d (⟨.lbrace 0, o⟩ :: w) body r := by
  intro stop last
  simp [branchBody, Depths.mark, Depths.next, Token.sameKind, Token.bare, h stop o]

theorem Takes.singleBranch {statement : Parser Stmt} {s : Stmt}
    (hs : ∃ l v, w = l :: v ∧ l.token.startsStmt = true) (h : Takes statement d w s r) :
    Takes (branchBody eatExact n statement) d w [s] r := by
  intro stop last
  have hk : (firstToken (d.assign w ++ r)).sameKind (.lbrace 0) = false := by
    obtain ⟨l, v, rfl, hs⟩ := hs
    cases h : l.token <;> simp [firstToken, h, Depths.mark] at hs ⊢ <;> first | rfl | cases hs
  simp [branchBody, Cursor.token_head, hk, h stop last]

/-- A choice is read up to the end of its first branch. -/
theorem run_choice {t b : List Lexeme} {test : Expr} {body : List Stmt} {s o c : Span} (ht : Balanced t)
    (h : Takes (expressionWithin eatExact n) ⟨d.braces, d.parens + 1⟩ t test
      (⟨.rparen d.parens, c⟩ :: (d.assign b ++ r)))
    (hb : Takes (branchBody eatExact n (statementWithin eatExact n)) d b body r) (stop last : Span) :
    (statementWithin eatExact (n + 1)).run
        ⟨d.assign (⟨.keyIf, s⟩ :: ⟨.lparen 0, o⟩ :: t ++ ⟨.rparen 0, c⟩ :: b) ++ r, stop, last⟩ =
      (do
        let elseBody ←
          if ← eat .keyElse then
            some <$> branchBody eatExact n (statementWithin eatExact n)
          else pure none
        return Stmt.branch test body elseBody (← spanFrom s)).run ⟨r, stop, spanAfter c b⟩ := by
  simp [statementWithin, closeParen, Depths.mark, Depths.next, Depths.assign_append, ht.after_eq,
    Token.sameKind, Token.bare, Token.depth?, h stop o, hb stop c]

theorem Takes.choose {t b : List Lexeme} {test : Expr} {body : List Stmt} {s o c : Span}
    (ht : Balanced t) (hr : firstToken r ≠ .keyElse)
    (h : Takes (expressionWithin eatExact n) ⟨d.braces, d.parens + 1⟩ t test
      (⟨.rparen d.parens, c⟩ :: (d.assign b ++ r)))
    (hb : Takes (branchBody eatExact n (statementWithin eatExact n)) d b body r)
    (hw : w = ⟨.keyIf, s⟩ :: ⟨.lparen 0, o⟩ :: t ++ ⟨.rparen 0, c⟩ :: b) :
    Takes (statementWithin eatExact (n + 1)) d w (.branch test body none (cover w)) r := by
  subst hw
  intro stop last
  have hk : (firstToken r).sameKind .keyElse = false :=
    Bool.eq_false_iff.mpr fun h => hr (Token.eq_of_flat (Token.flat_of_sameKind rfl h) rfl)
  rw [run_choice ht h hb]
  simp [Cursor.token_head, hk, cover]

theorem Takes.chooseElse {t b b' : List Lexeme} {test : Expr} {body body' : List Stmt} {s o c k : Span}
    (ht : Balanced t) (hb' : Balanced b)
    (h : Takes (expressionWithin eatExact n) ⟨d.braces, d.parens + 1⟩ t test
      (⟨.rparen d.parens, c⟩ :: (d.assign b ++ ⟨.keyElse, k⟩ :: (d.assign b' ++ r))))
    (hb : Takes (branchBody eatExact n (statementWithin eatExact n)) d b body
      (⟨.keyElse, k⟩ :: (d.assign b' ++ r)))
    (he : Takes (branchBody eatExact n (statementWithin eatExact n)) d b' body' r)
    (hw : w = ⟨.keyIf, s⟩ :: ⟨.lparen 0, o⟩ :: t ++ ⟨.rparen 0, c⟩ :: b ++ ⟨.keyElse, k⟩ :: b') :
    Takes (statementWithin eatExact (n + 1)) d w (.branch test body (some body') (cover w)) r := by
  intro stop last
  have hu : Balanced (⟨.keyIf, s⟩ :: ⟨.lparen 0, o⟩ :: t ++ ⟨.rparen 0, c⟩ :: b) :=
    .cons rfl nofun (ht.parens hb')
  have hr : d.assign w ++ r =
      d.assign (⟨.keyIf, s⟩ :: ⟨.lparen 0, o⟩ :: t ++ ⟨.rparen 0, c⟩ :: b) ++
        ⟨.keyElse, k⟩ :: (d.assign b' ++ r) := by
    rw [hw, Depths.assign_append, hu.after_eq, List.append_assoc]
    rfl
  rw [hr, run_choice ht h hb]
  simp [Token.sameKind, he stop k, cover, hw]

end Parser

/-- No `else` stands behind the last statement of a block or before another one. -/
theorem BodyDerived.firstToken_ne_else {w r : List Lexeme} {body : List Stmt} {d : Depths} {c : Span}
    (h : BodyDerived ArgsDerived w body) :
    firstToken (d.assign (w ++ [⟨.rbrace 0, c⟩]) ++ r) ≠ .keyElse := by
  cases h with
  | nil => simp [firstToken, Depths.mark]
  | cons h hs =>
    obtain ⟨l, v, rfl, hl⟩ := h.starts
    exact ne_firstToken_of_starts rfl ⟨l, _, rfl, hl⟩

mutual

/-- A statement is read; one that ends in an `if` without `else`, where no `else` follows. -/
theorem StmtDerived.takes {isOpen : Bool} {w r : List Lexeme} {s : Stmt} {n : Nat} {d : Depths}
    (hn : w.length + r.length ≤ n) (ho : isOpen = true → firstToken r ≠ .keyElse)
    (h : StmtDerived ArgsDerived isOpen w s) : Takes (statementWithin eatExact n) d w s r := by
  obtain ⟨n, rfl⟩ : ∃ k, n = k + 1 := ⟨n - 1, by
    have := List.length_pos_iff.mpr (h.ne_nil); omega⟩
  match h with
  | .declare hw => exact .declare hw
  | .declareAs hv hw => exact .declareAs (hv.takes (by simp [hw] at hn ⊢; omega) rfl) hw
  | .publish hw => exact .publish hw
  | .step hs hm hw =>
    exact .assign (v := []) hm (.stepValue hs) (by simpa using hw)
  | .assign (e := e) hs hm hv hw =>
    exact .assign (e := e) hm (.operandValue hs (hv.takes (by simp [hw] at hn ⊢; omega) rfl)) hw
  | .call (d := k) (o := o) (c := c) (e := e) ha hw =>
    refine .callStatement (e := e) (.callTail (k := k) (o := o) (ha.takes (c := c) rfl ?_)) ?_
    · simp [hw] at hn ⊢
      omega
    · simpa using hw
  | .ret (s := k) (o := o) (c := c) (e := e) ha hw =>
    refine .ret (s := k) (o := o) (e := e) (ha.takes (c := c) rfl ?_) ?_
    · simp [hw] at hn ⊢
      omega
    · simpa using hw
  | .choose ht hb hw =>
    exact .choose (ht.balanced (List.suffix_refl _)) (ho rfl)
      (ht.takes (by simp [hw] at hn ⊢; omega) rfl)
      (hb.takes (by simp [hw] at hn ⊢; omega) fun _ => ho rfl) hw
  | .chooseElse ht hb he hw =>
    exact .chooseElse (ht.balanced (List.suffix_refl _)) hb.balanced
      (ht.takes (by simp [hw] at hn ⊢; omega) rfl)
      (hb.takes (by simp [hw] at hn ⊢; omega) (by simp))
      (he.takes (by simp [hw] at hn ⊢; omega) ho) hw

theorem BranchDerived.takes {isOpen : Bool} {w r : List Lexeme} {body : List Stmt} {n : Nat} {d : Depths}
    (hn : w.length + r.length ≤ n) (ho : isOpen = true → firstToken r ≠ .keyElse) :
    BranchDerived ArgsDerived isOpen w body →
    Takes (branchBody eatExact n (statementWithin eatExact n)) d w body r
  | .block h => .blockBranch (h.takes rfl (by simp at hn; omega) (Nat.le_refl n))
  | .single h => .singleBranch h.starts (h.takes hn ho)

theorem BodyDerived.takes {w r : List Lexeme} {body : List Stmt} {n m : Nat} {d : Depths} {k : Int}
    {o c : Span} (hd : d.braces = k + 1) (hm : w.length + 1 + r.length ≤ m) (hn : m ≤ n) :
    BodyDerived ArgsDerived w body →
    Takes (block eatExact (statementWithin eatExact n) ⟨.lbrace k, o⟩ m) d (w ++ [⟨.rbrace 0, c⟩]) body r
  | .nil => by
    obtain ⟨m, rfl⟩ : ∃ k, m = k + 1 := ⟨m - 1, by omega⟩
    exact .emptyBlock hd
  | .cons (u := u) (v := v) h hs => by
    have hpos := List.length_pos_iff.mpr h.ne_nil
    obtain ⟨m, rfl⟩ : ∃ k, m = k + 1 := ⟨m - 1, by omega⟩
    rw [List.append_assoc]
    refine .blockCons h.balanced h.starts (h.takes (by simp at hm ⊢; omega) fun _ => ?_)
      (hs.takes hd (by simp at hm; omega) (by omega))
    exact hs.firstToken_ne_else

end

/-! ## Programs -/

/-- Parameters are read with their closing parenthesis, whatever its depth. -/
theorem ParamListDerived.run_parameters {w r : List Lexeme} {params : List Parameter} {n : Nat}
    {d : Depths} (hn : w.length ≤ n) (h : ParamListDerived w params) (k : Int) (c stop last : Span) :
    (parameters n).run ⟨d.assign w ++ ⟨.rparen k, c⟩ :: r, stop, last⟩ = .ok params ⟨r, stop, c⟩ := by
  induction h generalizing n last with
  | one =>
    obtain ⟨n, rfl⟩ : ∃ k, n = k + 1 := ⟨n - 1, by simp at hn; omega⟩
    simp [parameters, Depths.mark, Token.sameKind, Token.bare]
  | more h ih =>
    obtain ⟨n, rfl⟩ : ∃ k, n = k + 1 := ⟨n - 1, by simp at hn; omega⟩
    have hrest := ih (n := n) (by simp at hn; omega)
    simp [parameters, Depths.mark, Depths.next, Token.sameKind, Token.bare, hrest]

theorem ParamListDerived.balanced {w : List Lexeme} {params : List Parameter}
    (h : ParamListDerived w params) : Balanced w := by
  induction h with
  | one => exact .cons rfl nofun (.cons rfl nofun .nil)
  | more _ ih => exact .cons rfl nofun (.cons rfl nofun (.cons rfl nofun ih))

/-- Parameters do not start with a closing parenthesis. -/
theorem ParamListDerived.firstToken_ne {w r : List Lexeme} {params : List Parameter} {d : Depths}
    (h : ParamListDerived w params) :
    (firstToken (d.assign w ++ r)).sameKind (.rparen 0) = false := by
  cases h <;> rfl

theorem ParamsDerived.balanced {w : List Lexeme} {params : List Parameter} :
    ParamsDerived w params → Balanced w
  | .none => .nil
  | .some h => h.balanced

namespace Parser

variable {n : Nat} {d : Depths} {p b r : List Lexeme} {params : List Parameter} {body : List Stmt}
  {name : String} {t o c o' : Span}

theorem Takes.method (hn : p.length ≤ n) (hp : ParamsDerived p params)
    (h : Takes (block eatExact (statementWithin eatExact n) ⟨.lbrace d.braces, o'⟩ n)
      ⟨d.braces + 1, d.parens⟩ b body r) :
    Takes (method eatExact n) d
      (⟨.ident name, t⟩ :: ⟨.lparen 0, o⟩ :: p ++ ⟨.rparen 0, c⟩ :: ⟨.lbrace 0, o'⟩ :: b)
      ⟨⟨name, t⟩, params, body⟩ r := by
  intro stop last
  have hl : ∀ k, (Token.lparen k).sameKind (.lparen 0) = true := fun _ => rfl
  have hb : ∀ k, (Token.lbrace k).sameKind (.lbrace 0) = true := fun _ => rfl
  cases hp with
  | none =>
    have hr : ∀ k, (Token.rparen k).sameKind (.rparen 0) = true := fun _ => rfl
    simp [Parser.method, Depths.mark, Depths.next, hl, hb, hr, h stop o']
  | some hp =>
    simp [Parser.method, Depths.assign_append, Depths.mark, Depths.next, hp.balanced.after_eq, hl, hb,
      hp.firstToken_ne, Cursor.token_head, hp.run_parameters hn, h stop o']

theorem Takes.itemsMethod {u v : List Lexeme} {m : Method} {is : List Item} {s : Span}
    (hu : Balanced u) (h : Takes (Parser.method eatExact n) d u m (d.assign v))
    (hv : Takes (items eatExact n) d v is []) :
    Takes (items eatExact (n + 1)) d (⟨.keyDef, s⟩ :: u ++ v) (.method m :: is) [] := by
  intro stop last
  have hv : ∀ last, (items eatExact n).run ⟨d.assign v, stop, last⟩ = _ := fun last => by
    simpa using hv stop last
  simp [items, Depths.mark, Depths.next, Depths.assign_append, hu.after_eq, Token.sameKind, h stop s, hv]

theorem Takes.itemsGlobalVar {v : List Lexeme} {type : String} {is : List Item} {s e : Span}
    (hv : Takes (items eatExact n) d v is []) :
    Takes (items eatExact (n + 1)) d
      (⟨.typeName type, s⟩ :: ⟨.ident name, t⟩ :: ⟨.semicolon, e⟩ :: v)
      (.globalVar ⟨type, ⟨name, t⟩, none, false⟩ :: is) [] := by
  intro stop last
  have hv : ∀ last, (items eatExact n).run ⟨d.assign v, stop, last⟩ = _ := fun last => by
    simpa using hv stop last
  simp [items, Parser.globalVar, Depths.mark, Depths.next, Token.sameKind, Token.bare, hv]

end Parser

theorem ItemDerived.balanced {w : List Lexeme} {item : Item} :
    ItemDerived ArgsDerived w item → Balanced w
  | .method hp hb => by
    simpa using Balanced.cons (l := ⟨.keyDef, _⟩) rfl nofun
      (.cons (l := ⟨.ident _, _⟩) rfl nofun (hp.balanced.parens (hb.balanced.braces .nil)))
  | .globalVar => .cons rfl nofun (.cons rfl nofun (.cons rfl nofun .nil))

theorem ItemsDerived.balanced {w : List Lexeme} {is : List Item} (h : ItemsDerived ArgsDerived w is) :
    Balanced w := by
  induction h with
  | nil => exact .nil
  | cons h _ ih => exact h.balanced.append ih

/-- A program is read to the end of its source. -/
theorem ItemsDerived.takes {w : List Lexeme} {is : List Item} {n : Nat} {d : Depths} (hn : w.length ≤ n)
    (h : ItemsDerived ArgsDerived w is) : Takes (items eatExact n) d w is [] := by
  induction h generalizing n with
  | nil =>
    intro stop last
    cases n <;> simp [items]
  | cons h hs ih =>
    obtain ⟨n, rfl⟩ : ∃ k, n = k + 1 := ⟨n - 1, by cases h <;> simp at hn <;> omega⟩
    cases h with
    | @method p b _ _ name s t o c o' c' hp hb =>
      have hu : Balanced (⟨.ident name, t⟩ :: ⟨.lparen 0, o⟩ :: p ++
          ⟨.rparen 0, c⟩ :: ⟨.lbrace 0, o'⟩ :: (b ++ [⟨.rbrace 0, c'⟩])) :=
        .cons rfl nofun (hp.balanced.parens (hb.balanced.braces .nil))
      have hm := Takes.itemsMethod (s := s) hu (.method (by simp at hn; omega) hp
        (hb.takes rfl (by simp at hn ⊢; omega) (Nat.le_refl n))) (ih (by simp at hn; omega))
      simpa using hm
    | globalVar => exact .itemsGlobalVar (ih (by simp at hn; omega))

/-- Tokens from which a program is derived are read as that program. -/
theorem ItemsDerived.run_program {w : List Lexeme} {is : List Item} (h : ItemsDerived ArgsDerived w is)
    (d : Depths) (stop last : Span) :
    program.run ⟨d.assign w, stop, last⟩ = .ok ⟨is⟩ ⟨[], stop, spanAfter last w⟩ := by
  have ht := h.takes (n := w.length) (d := d) (Nat.le_refl _) stop last
  rw [List.append_nil] at ht
  simp [program, programBy, ht]

end ScriptGraph
