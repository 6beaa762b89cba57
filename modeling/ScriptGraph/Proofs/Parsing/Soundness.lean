import ScriptGraph.Proofs.Parsing.Recognition
import ScriptGraph.Proofs.Token.Nesting

/-!
# Readers take words of the grammar

Every reader of the language recognizes its part of the grammar, by induction on the bound that the
reader recurs on. Three points are not read off the readers:

* a chain holds all operators of its stratum to the left of the last one, so the word so far is always
  an expression of that stratum;
* arguments may end in a comma, and where a closing parenthesis follows an argument no comma does;
* a branch stops where no `else` follows it if it ends in an `if` without `else`, so the `else` that a
  choice finds behind its first branch cannot belong to an `if` inside of that branch.
-/

namespace ScriptGraph

namespace Parser

variable {α : Type} {c : Cursor} {w : List Lexeme} {n : Nat}

/-! ## Languages -/

/-- Expressions with the operators of some strata. -/
def exprs (strata : List Stratum) : Language Expr :=
  fun w e _ => ExprDerived strata w e

/-- Arguments and their closing parenthesis. -/
def closedArgs : Language (List Expr) :=
  fun w es _ => ∃ u s, w = u ++ [⟨.rparen 0, s⟩] ∧ ArgsDerived u es

/-- What follows the qualifier of a call. -/
def callTails : Language (Name × List Expr) :=
  fun w x _ => ∃ u d o s, ArgsDerived u x.2 ∧
    w = ⟨.dot, d⟩ :: ⟨.ident x.1.text, x.1.span⟩ :: ⟨.lparen 0, o⟩ :: u ++ [⟨.rparen 0, s⟩]

/-! ## Expressions -/

/-- A chain goes on behind its left operand. -/
theorem After.chainFrom {stratum : Stratum} {strata : List Stratum} {operand : Parser Expr}
    (hs : ∀ t op, stratum t = some op → t.isMark = true)
    (hop : Recognizes n operand (exprs strata)) (hc : c.Within n) (m : Nat) {left : Expr}
    (hl : ExprDerived (stratum :: strata) w left) :
    After (chainFrom stratum operand m left) c w (exprs (stratum :: strata)) := by
  induction m generalizing w left with
  | zero => exact .pure fun _ => hl
  | succ m ih =>
    refine ⟨⟨[], left, by rwa [List.append_nil]⟩, fun c' h => ?_⟩
    rw [Parser.chainFrom, run_bind, run_peek]
    rcases ho : stratum c'.head.token with _ | op
    · simp only [ho]
      exact ⟨w, h, hl⟩
    · simp only [ho, discard_bind]
      rw [run_bind, run_advance]
      have hm := hs _ _ ho
      have hr := h.trans (.head (Token.ne_eof_of_isMark hm))
      rw [Lexeme.flat, Token.flat_of_isMark hm] at hr
      refine (After.bind hop (hc.mono (Nat.le_add_right ..)) fun right v _ hv => ?_).fulfils _ hr
      exact ih (by simpa using ExprDerived.binary hl ho hv)

theorem Recognizes.chain {stratum : Stratum} {strata : List Stratum} {operand : Parser Expr}
    (hs : ∀ t op, stratum t = some op → t.isMark = true)
    (hop : Recognizes n operand (exprs strata)) (m : Nat) :
    Recognizes n (chain m stratum operand) (exprs (stratum :: strata)) := by
  intro c hc
  exact .bind hop hc fun left v _ hv => .chainFrom hs hop hc m (.operand hv)

/-- Chains of chains: each stratum has the tighter ones for its operands. -/
theorem Recognizes.foldr_chain {factor : Parser Expr} (hf : Recognizes n factor (exprs [])) (m : Nat)
    {strata : List Stratum} (hs : ∀ stratum ∈ strata, stratum ∈ Stratum.all) :
    Recognizes n (strata.foldr (Parser.chain m) factor) (exprs strata) := by
  induction strata with
  | nil => exact hf
  | cons stratum strata ih =>
    exact .chain (fun t op => Stratum.isMark_of_mem (hs stratum (List.mem_cons_self ..)))
      (ih fun s h => hs s (List.mem_cons_of_mem _ h)) m

theorem Recognizes.strata {factor : Parser Expr} (hf : Recognizes n factor (exprs [])) (m : Nat) :
    Recognizes n (strata m factor) (exprs Stratum.all) :=
  .foldr_chain hf m fun _ h => h

/-- Where a closing parenthesis stands first, there are no arguments. -/
theorem closedArgs_rparen {l : Lexeme} {v : List Lexeme} {es : List Expr} {t : Token}
    (h : closedArgs (l :: v) es t) (hl : l.token = .rparen 0) : v = [] ∧ es = [] := by
  obtain ⟨u, s, hu, h⟩ := h
  have hno : ∀ {w x : List Lexeme}, ArgListDerived w es → l :: v ≠ w ++ x := by
    intro w x hw hx
    obtain ⟨l', v', rfl, hs⟩ := hw.starts
    cases hx
    simp [hl, Token.startsExpr] at hs
  cases h with
  | none =>
    cases hu
    exact ⟨rfl, rfl⟩
  | some h => exact absurd hu (hno h)
  | trailing h => exact absurd (by rwa [List.append_assoc] at hu) (hno h)

/-- An argument with a comma goes before other arguments. -/
theorem closedArgs_cons {u v : List Lexeme} {e : Expr} {es : List Expr} {k : Span}
    {t t' : Token} (he : ExprDerived Stratum.all u e) (h : closedArgs v es t) :
    closedArgs (u ++ ⟨.comma, k⟩ :: v) (e :: es) t' := by
  obtain ⟨a, s, rfl, h⟩ := h
  refine ⟨u ++ ⟨.comma, k⟩ :: a, s, by simp, ?_⟩
  cases h with
  | none => exact .trailing (.one he)
  | some h => exact .some (.more he h)
  | trailing h => simpa using ArgsDerived.trailing (.more he h)

theorem Recognizes.arguments {expression : Parser Expr}
    (he : Recognizes n expression (exprs Stratum.all)) (opening : Lexeme) {m : Nat} (hm : m ≤ n) :
    Recognizes m (arguments eatExact expression opening m) closedArgs := by
  induction m with
  | zero =>
    intro c hc
    have hw : ∃ v a, closedArgs ([] ++ v) a .eof := ⟨[⟨.rparen 0, ⟨0, 0⟩⟩], [], [], _, rfl, .none⟩
    refine ⟨hw, fun c' h => .inr ⟨rfl, ?_⟩⟩
    rwa [List.eq_nil_of_length_eq_zero (Nat.le_zero.mp hc.1)]
  | succ m ih =>
    intro c hc
    rw [Parser.arguments]
    simp only [discard_bind]
    refine .ifEatExact (by simp) (fun s => .pure fun _ => ⟨[], s, rfl, .none⟩) ?_
    refine .unlessEnd hc rfl ?_
    refine .bind he (hc.mono (by simpa using hm)) fun arg v _ hv => ?_
    -- An argument takes a token, so the bound suffices for those behind it.
    have hlen : 0 < v.length := by
      obtain ⟨l, v', rfl, -⟩ := ExprDerived.starts hv
      exact Nat.succ_pos _
    have hargs := ih (Nat.le_of_succ_le hm)
    refine .ifCheck (fun c' h hk => ?_) ?_
    · -- No comma is needed before a closing parenthesis, and then no argument follows.
      have hlast : ∀ x es t, closedArgs (c'.head.flat :: x) es t →
          closedArgs ([] ++ v ++ c'.head.flat :: x) (arg :: es) t := by
        intro x es t hx
        have hflat := Token.flat_of_sameKind rfl hk
        obtain ⟨rfl, rfl⟩ := closedArgs_rparen hx hflat
        exact ⟨v, c'.head.span, by simp [Lexeme.flat, hflat], .some (.one hv)⟩
      refine .bind h ((hargs c' ((hc.mono (by simp; omega)).of_reads h)).fulfils c' (.refl c'))
        (fun args x c'' hx ha => ?_) fun args x ha => ?_
      · obtain ⟨x', rfl⟩ := hx.eq_cons (by obtain ⟨u, s, rfl, -⟩ := ha; simp)
        exact ⟨_, h.trans hx, hlast x' args _ ha⟩
      · obtain ⟨r, hr⟩ := Cursor.rest_eq_cons (Token.ne_eof_of_sameKind rfl hk)
        rw [hr, List.map_cons, List.cons_append] at ha ⊢
        exact ⟨[], arg :: args, by simpa using hlast _ args _ ha⟩
    · refine .expect rfl hc fun k _ => .bind hargs (hc.mono (by simp)) ?_
      intro args x _ ha
      exact .pure fun t => by simpa using closedArgs_cons (k := k.span) hv ha

theorem Recognizes.closeParen {opening : Lexeme} {expected : String} :
    Recognizes n (closeParen eatExact opening expected) fun v _ _ => ∃ s, v = [⟨.rparen 0, s⟩] := by
  intro c hc
  rw [Parser.closeParen]
  refine .ifEatExact (by simp) (fun s => .pure fun _ => ⟨s, rfl⟩) ?_
  exact .unlessEnd hc rfl (.refusal hc ⟨[⟨.rparen 0, ⟨0, 0⟩⟩], (), _, rfl⟩)

theorem Recognizes.callTail {expression : Parser Expr}
    (he : Recognizes n expression (exprs Stratum.all)) :
    Recognizes n (callTail eatExact n expression) callTails := by
  intro c hc
  rw [Parser.callTail]
  simp only [discard_bind]
  refine .expect rfl hc fun d _ => .expectIdent hc fun member m => .expect rfl hc fun o _ => ?_
  refine .bind (.arguments he o (Nat.le_refl n)) (hc.mono (by simp)) fun args x _ ha => ?_
  obtain ⟨u, s, rfl, ha⟩ := ha
  exact .pure fun t => ⟨u, d.span, o.span, s, ha, by simp⟩

/-- A point goes before digits. -/
theorem After.fraction {s : Span} (hc : c.Within n) :
    After (do
      match (← Parser.peek).token with
      | .number digits =>
        let last ← Parser.advance
        numberLiteral ("0." ++ digits) (s.merge last.span)
      | _ => failHere "digits after '.'") c [⟨.dot, s⟩] (exprs []) := by
  have hzero : Binary32.ofText? ("0." ++ "0") = some (.finite false 0) := by
    decide
  have hw : ∃ v e, exprs [] ([⟨.dot, s⟩] ++ v) e .eof :=
    ⟨[⟨.number "0", ⟨0, 0⟩⟩], _, .fraction hzero⟩
  refine ⟨hw, fun c' h => ?_⟩
  rw [run_bind, run_peek]
  dsimp only
  split
  · next digits ht =>
    rw [run_bind, run_advance]
    dsimp only
    rw [run_numberLiteral]
    rcases hv : Binary32.ofText? ("0." ++ digits) with _ | value
    · exact .inl rfl
    · have hr := h.trans (.head (c := c') (by simp [ht]))
      rw [Lexeme.flat, ht] at hr
      exact ⟨_, hr, .fraction hv⟩
  · rw [run_failHere]
    exact .refusal hc h hw c'

theorem Recognizes.factor : Recognizes n (factor eatExact n) (exprs []) := by
  have hw : ∃ v e, exprs [] ([] ++ v) e .eof := ⟨[⟨.ident "x", ⟨0, 0⟩⟩], _, .var⟩
  induction n with
  | zero => exact fun c hc => .refusal hc hw
  | succ n ih =>
    intro c hc
    have he := ih.strata n
    have hc' : ∀ l : Lexeme, c.Within (n + ([] ++ [l]).length) := fun _ => hc
    rw [Parser.factor]
    refine .advance hc hw (fun l c' hl => ?_) fun l hl => ?_
    · simp only [hl, run_failAt]
      exact ⟨_, _, rfl, Lexeme.refusal_of_eof hl _⟩
    · rcases l with ⟨t, s⟩
      cases t with
      | number text =>
        dsimp only [Parser.numberLiteral]
        rcases hv : Binary32.ofText? text with _ | value
        · exact .inr fun c' => ⟨_, _, rfl, rfl⟩
        · exact .inl (.pure fun _ => .number hv)
      | dot => exact .inl (.fraction hc)
      | lparen d =>
        refine .inl (.bind he (hc' _) fun e v _ hv => .bind .closeParen hc.add fun _ u _ hu => ?_)
        obtain ⟨s', rfl⟩ := hu
        exact .pure fun _ => .group hv
      | ident text => exact .inl (.pure fun _ => .var)
      | minus => exact .inl (.bind ih (hc' _) fun e v _ hv => .pure fun _ => .neg hv)
      | bang => exact .inl (.bind ih (hc' _) fun e v _ hv => .pure fun _ => .not hv)
      | keyNew =>
        refine .inl (.expectTypeName hc fun type p => .expect rfl hc fun o _ => ?_)
        refine .bind (.arguments he o (Nat.le_refl n)) (hc.mono (by simp)) fun args x _ ha => ?_
        obtain ⟨u, s', rfl, ha⟩ := ha
        exact .pure fun _ => by
          simpa [exprs, Lexeme.flat, Token.flat] using ExprDerived.construct ha
      | qualifier receiver =>
        refine .inl (.bind he.callTail (hc' _) fun x v _ hv => ?_)
        obtain ⟨u, d, o, s', ha, rfl⟩ := hv
        exact .pure fun _ => by
          simpa [exprs, Lexeme.flat, Token.flat] using ExprDerived.call ha
      | eof => exact absurd rfl hl
      | _ => exact .inr fun c' => ⟨_, _, rfl, rfl⟩

theorem Recognizes.expression :
    Recognizes n (expressionWithin eatExact n) (exprs Stratum.all) :=
  Recognizes.factor.strata n

/-! ## Statements -/

/-- Statements. One that ends in an `if` without `else` does not stand before an `else`. -/
def stmts : Language Stmt :=
  fun w s t => ∃ isOpen, StmtDerived ArgsDerived isOpen w s ∧ (isOpen = true → t ≠ .keyElse)

/-- Branches of a choice. -/
def branches : Language (List Stmt) :=
  fun w body t => ∃ isOpen, BranchDerived ArgsDerived isOpen w body ∧ (isOpen = true → t ≠ .keyElse)

/-- Statements and the closing brace behind them. -/
def closedBodies : Language (List Stmt) :=
  fun w body _ => ∃ u s, w = u ++ [⟨.rbrace 0, s⟩] ∧ BodyDerived ArgsDerived u body

/-- Operands of an assignment operator. -/
def operands (op : AssignOp) : Language Expr :=
  fun w e _ => if op.isStep then w = [] ∧ e = .number 1 else ExprDerived Stratum.all w e

theorem Recognizes.assignOp :
    Recognizes n assignOp fun w op _ => w.map Lexeme.token = op.tokens := by
  intro c hc
  rw [Parser.assignOp]
  simp only [discard_bind]
  refine .ifEat rfl (fun _ => .ifEat rfl (fun _ => .pure fun _ => rfl) ?_) ?_
  · exact .expect rfl hc fun _ _ => .pure fun _ => rfl
  refine .ifEat rfl (fun _ => .ifEat rfl (fun _ => .pure fun _ => rfl) ?_) ?_
  · exact .expect rfl hc fun _ _ => .pure fun _ => rfl
  refine .ifEat rfl (fun _ => .expect rfl hc fun _ _ => .pure fun _ => rfl) ?_
  refine .ifEat rfl (fun _ => .expect rfl hc fun _ _ => .pure fun _ => rfl) ?_
  refine .ifEat rfl (fun _ => .expect rfl hc fun _ _ => .pure fun _ => rfl) ?_
  exact .expect rfl hc fun _ _ => .pure fun _ => rfl

theorem Recognizes.assignValue (op : AssignOp) :
    Recognizes n (assignValue eatExact n op) (operands op) := by
  intro c hc
  cases op with
  | increment => exact .pure fun _ => ⟨rfl, rfl⟩
  | decrement => exact .pure fun _ => ⟨rfl, rfl⟩
  | _ => exact Recognizes.expression c hc

theorem Recognizes.block {statement : Parser Stmt} (hs : Recognizes n statement stmts)
    (opening : Lexeme) {m : Nat} (hm : m ≤ n) :
    Recognizes m (block eatExact statement opening m) closedBodies := by
  induction m with
  | zero =>
    intro c hc
    have hw : ∃ v a, closedBodies ([] ++ v) a .eof := ⟨[⟨.rbrace 0, ⟨0, 0⟩⟩], [], [], _, rfl, .nil⟩
    refine ⟨hw, fun c' h => .inr ⟨rfl, ?_⟩⟩
    rwa [List.eq_nil_of_length_eq_zero (Nat.le_zero.mp hc.1)]
  | succ m ih =>
    intro c hc
    rw [Parser.block]
    refine .ifEatExact (by simp) (fun s => .pure fun _ => ⟨[], s, rfl, .nil⟩) ?_
    refine .unlessEnd hc rfl ?_
    refine .bind hs (hc.mono (by simpa using hm)) fun s v _ hv => ?_
    obtain ⟨isOpen, hv, -⟩ := hv
    have hlen : 0 < v.length := List.length_pos_iff.mpr hv.ne_nil
    refine .bind (ih (Nat.le_of_succ_le hm)) (hc.mono (by simp; omega)) fun others x _ ho => ?_
    obtain ⟨u, e, rfl, ho⟩ := ho
    exact .pure fun _ => ⟨v ++ u, e, by simp, .cons hv ho⟩

theorem Recognizes.branchBody {statement : Parser Stmt} (hs : Recognizes n statement stmts) :
    Recognizes n (branchBody eatExact n statement) branches := by
  intro c hc
  rw [Parser.branchBody]
  refine .eat? rfl (fun o _ => .last (.block hs o (Nat.le_refl n)) hc.add ?_)
    (.bindPure hs hc fun s v t hv => ?_)
  · rintro body _ t ⟨u, e, rfl, hu⟩
    exact ⟨false, .block hu, by simp⟩
  · obtain ⟨isOpen, hv, ho⟩ := hv
    exact ⟨isOpen, .single hv, ho⟩

/-- A choice goes on behind its first branch. Where an `else` follows, the branch cannot take it. -/
theorem Fulfils.elseBody {statement : Parser Stmt} (hs : Recognizes n statement stmts) {s o e : Span}
    {t b : List Lexeme} {test : Expr} {thenBody : List Stmt} {isOpen : Bool} {c' : Cursor}
    (ht : ExprDerived Stratum.all t test) (hb : BranchDerived ArgsDerived isOpen b thenBody)
    (hw : w = ⟨.keyIf, s⟩ :: ⟨.lparen 0, o⟩ :: t ++ ⟨.rparen 0, e⟩ :: b)
    (ho : isOpen = true → c'.head.token ≠ .keyElse) (hc : c.Within (n + w.length))
    (h : c.Reads w c') :
    Fulfils c stmts ((do
      if ← eat .keyElse then
        let elseBody ← Parser.branchBody eatExact n statement
        let span ← spanFrom s
        return Stmt.branch test thenBody (some elseBody) span
      else
        let span ← spanFrom s
        return Stmt.branch test thenBody none span).run c') := by
  rw [run_bind, run_eat]
  by_cases hk : c'.head.token = .keyElse
  · have hr := h.trans (.head (by simp [hk]))
    obtain rfl : isOpen = false := Bool.eq_false_iff.mpr fun hi => ho hi hk
    simp only [hk, Token.sameKind, beq_self_eq_true, if_true]
    refine (After.bindAhead hs.branchBody (hc.mono (by simp)) ?_ ?_).fulfils _ hr
    · rintro elseBody b' c'' h' ⟨isOpen, he, ho'⟩
      rw [run_bind, run_spanFrom, h'.merge_last (by simp [hw])]
      refine ⟨_, h', isOpen, .chooseElse (s := s) (o := o) (c := e) (k := c'.head.span) ht hb he ?_, ho'⟩
      simp [hw, Lexeme.flat, hk, Token.flat]
    · rintro elseBody b' ⟨isOpen, he, -⟩
      refine ⟨[], _, isOpen, .chooseElse (s := s) (o := o) (c := e) (k := c'.head.span) ht hb he ?_, by simp⟩
      simp [hw, Lexeme.flat, hk, Token.flat]
  · have hk' : c'.head.token.sameKind .keyElse = false :=
      Bool.eq_false_iff.mpr fun h => hk (Token.eq_of_flat (Token.flat_of_sameKind rfl h) rfl)
    simp only [hk', if_false, Bool.false_eq_true]
    rw [run_bind, run_spanFrom, h.merge_last (by simp [hw])]
    exact ⟨w, h, true, .choose ht hb hw, fun _ => hk⟩

theorem Recognizes.statement : Recognizes n (statementWithin eatExact n) stmts := by
  have hw : ∃ v s, stmts ([] ++ v) s .eof := by
    let marks : List Lexeme := [⟨.plus, ⟨0, 0⟩⟩, ⟨.plus, ⟨0, 0⟩⟩]
    exact ⟨⟨.ident "x", ⟨0, 0⟩⟩ :: marks ++ [⟨.semicolon, ⟨0, 0⟩⟩],
      .assign ⟨"x", ⟨0, 0⟩⟩ .increment (.number 1) _, false, .step rfl rfl rfl, by simp⟩
  induction n with
  | zero => exact fun c hc => .refusal hc hw
  | succ n ih =>
    intro c hc
    have he := Recognizes.expression (n := n)
    have hc' : ∀ l : Lexeme, c.Within (n + ([] ++ [l]).length) := fun _ => hc
    rw [Parser.statementWithin]
    simp only [discard_bind, bind_map_left, pure_bind]
    refine .advance hc hw (fun l c' hl => ?_) fun l hl => ?_
    · simp only [hl, run_failAt]
      exact ⟨_, _, rfl, Lexeme.refusal_of_eof hl _⟩
    · rcases l with ⟨t, s⟩
      cases t with
      | keyIf =>
        refine .inl (.expect rfl hc fun o _ => .bind he (hc.mono (by simp)) fun test t _ ht => ?_)
        refine .bind .closeParen hc.add fun _ u _ hu => ?_
        obtain ⟨e, rfl⟩ := hu
        refine .bindAhead ih.branchBody (hc.mono (by simp)) ?_ ?_
        · rintro thenBody b c' h ⟨isOpen, hb, ho⟩
          refine .elseBody (o := o.span) (e := e) ih ht hb ?_ ho (hc.mono (by simp)) h
          simp [Lexeme.flat, Token.flat]
        · rintro thenBody b ⟨isOpen, hb, ho⟩
          refine ⟨[], _, true, .choose (s := s) (o := o.span) (c := e) ht hb ?_, by simp⟩
          simp [Lexeme.flat, Token.flat]
      | typeName type =>
        refine .inl (.expectIdent hc fun name t => .ifEat rfl (fun a => ?_) ?_)
        · refine .bind he (hc.mono (by simp)) fun init v _ hv => .expect rfl hc fun e _ => ?_
          refine .spanFrom rfl (.pure fun _ => ⟨false, ?_, by simp⟩)
          refine .declareAs (s := s) (a := a) (e := e.span) hv ?_
          simp [Lexeme.flat, Token.flat]
        · refine .expect rfl hc fun e _ => .spanFrom rfl (.pure fun _ => ⟨false, ?_, by simp⟩)
          refine .declare (s := s) (e := e.span) ?_
          simp [Lexeme.flat, Token.flat]
      | keyPublic =>
        refine .inl (.expectTypeName hc fun type p => .expectIdent hc fun name t => ?_)
        refine .ifCheck (fun c' _ _ => .inl rfl) (.expect rfl hc fun e _ => ?_)
        refine .spanFrom rfl (.pure fun _ => ⟨false, ?_, by simp⟩)
        refine .publish (s := s) (p := p) (e := e.span) ?_
        simp [Lexeme.flat, Token.flat]
      | ident name =>
        refine .inl (.bind .assignOp hc.add fun op marks _ hm => ?_)
        refine .bind (.assignValue op) (hc.mono (by simp)) fun value v _ hv => ?_
        refine .expect rfl hc fun e _ => .spanFrom rfl (.pure fun _ => ?_)
        rw [operands] at hv
        split at hv
        · next hs =>
          obtain ⟨rfl, rfl⟩ := hv
          refine ⟨false, .step (e := e.span) hs hm ?_, by simp⟩
          simp [Lexeme.flat, Token.flat]
        · next hs =>
          refine ⟨false, .assign (e := e.span) (by simpa using hs) hm hv ?_, by simp⟩
          simp [Lexeme.flat, Token.flat]
      | qualifier receiver =>
        refine .inl (.bind he.callTail (hc' _) fun x v _ hv => .expect rfl hc fun e _ => ?_)
        obtain ⟨u, d, o, k, ha, rfl⟩ := hv
        refine .spanFrom rfl (.pure fun _ => ⟨false, ?_, by simp⟩)
        refine .call (d := d) (o := o) (c := k) (e := e.span) ha ?_
        simp [Lexeme.flat, Token.flat]
      | keyReturn =>
        refine .inl (.expect rfl hc fun o _ => ?_)
        refine .bind (.arguments he o (Nat.le_refl n)) (hc.mono (by simp)) fun values x _ hx => ?_
        obtain ⟨u, k, rfl, ha⟩ := hx
        refine .expect rfl hc fun e _ => .spanFrom rfl (.pure fun _ => ⟨false, ?_, by simp⟩)
        refine .ret (s := s) (o := o.span) (c := k) (e := e.span) ha ?_
        simp [Lexeme.flat, Token.flat]
      | eof => exact absurd rfl hl
      | _ => exact .inr fun c' => ⟨_, _, rfl, rfl⟩

/-! ## Programs -/

/-- Parameters, at least one, and their closing parenthesis. -/
def closedParams : Language (List Parameter) :=
  fun w params _ => ∃ u s, w = u ++ [⟨.rparen 0, s⟩] ∧ ParamListDerived u params

/-- What follows the keyword of a method. -/
def methodTails : Language Method :=
  fun w m _ => ∀ s, ItemDerived ArgsDerived (⟨.keyDef, s⟩ :: w) (.method m)

/-- Programs, up to the end. -/
def programs : Language (List Item) :=
  fun w items t => ItemsDerived ArgsDerived w items ∧ t = .eof

theorem Recognizes.parameters : Recognizes n (parameters n) closedParams := by
  have hw : ∃ v params, closedParams ([] ++ v) params .eof :=
    ⟨[⟨.typeName "int", ⟨0, 0⟩⟩, ⟨.ident "x", ⟨0, 0⟩⟩, ⟨.rparen 0, ⟨0, 0⟩⟩], _, _, _, rfl, .one⟩
  induction n with
  | zero => exact fun c hc => .refusal hc hw
  | succ n ih =>
    intro c hc
    rw [Parser.parameters]
    simp only [discard_bind]
    refine .expectTypeName hc fun type s => .expectIdent hc fun name t => .ifEat rfl (fun e => ?_) ?_
    · exact .pure fun _ => ⟨_, e, rfl, .one⟩
    · refine .expect rfl hc fun k _ => .bind ih (hc.mono (by simp)) fun others x _ hx => ?_
      obtain ⟨u, e, rfl, hu⟩ := hx
      exact .pure fun _ => ⟨_, e, by simp, .more (s := s) (k := k.span) hu⟩

theorem Recognizes.method : Recognizes n (method eatExact n) methodTails := by
  intro c hc
  rw [Parser.method]
  simp only [discard_bind, pure_bind]
  refine .expectIdent hc fun name t => .expect rfl hc fun o _ => ?_
  -- What is left to do behind the parameters, with or without them.
  have hrest : ∀ params p e, ParamsDerived p params →
      After (do
        let opening ← expect (.lbrace 0) "'\x7b' to begin method"
        let body ← Parser.block eatExact (statementWithin eatExact n) opening n
        return Method.mk ⟨name, t⟩ params body) c
        (⟨.ident name, t⟩ :: ⟨.lparen 0, o.span⟩ :: p ++ [⟨.rparen 0, e⟩]) methodTails := by
    intro params p e hp
    refine .expect rfl hc fun o' _ => ?_
    refine .bind (.block .statement o' (Nat.le_refl n)) hc.add fun body x _ hx => ?_
    obtain ⟨b, e', rfl, hb⟩ := hx
    refine .pure fun _ s => ?_
    have hm : ItemDerived ArgsDerived (⟨.keyDef, s⟩ :: ⟨.ident name, t⟩ :: ⟨.lparen 0, o.span⟩ :: p ++
        ⟨.rparen 0, e⟩ :: ⟨.lbrace 0, o'.span⟩ :: b ++ [⟨.rbrace 0, e'⟩]) _ := .method hp hb
    simpa using hm
  refine .ifEat rfl (fun e => hrest [] [] e .none) ?_
  refine .bind .parameters hc.add fun params x _ hx => ?_
  obtain ⟨p, e, rfl, hp⟩ := hx
  simpa using hrest params p e (.some hp)

theorem Recognizes.globalVar :
    Recognizes n globalVar fun w d _ => ItemDerived ArgsDerived w (.globalVar d) := by
  intro c hc
  rw [Parser.globalVar]
  simp only [discard_bind]
  refine .expectTypeName hc fun type s => .expectIdent hc fun name t => .expect rfl hc fun e _ => ?_
  exact .pure fun _ => .globalVar

theorem Recognizes.items : Recognizes n (items eatExact n) programs := by
  have hw : ∃ v is, programs ([] ++ v) is .eof := ⟨[], [], .nil, rfl⟩
  induction n with
  | zero =>
    intro c hc
    refine ⟨hw, fun c' h => ⟨[], h, .nil, ?_⟩⟩
    have hr := (hc.of_reads h).1
    rcases c' with ⟨_ | ⟨l, rest⟩, stop, last⟩
    · rfl
    · cases hr
  | succ n ih =>
    intro c hc
    rw [Parser.items]
    refine .ifAtEnd hc (fun c' h hr => ⟨[], h, .nil, ?_⟩) ?_
    · rcases c' with ⟨rest, stop, last⟩
      cases hr
      rfl
    · refine .ifEat rfl (fun s => ?_) (.ifCheck (fun c' h _ => ?_) (.refusal hc hw))
      · refine .bind .method (hc.mono (by simp)) fun m v _ hm => .bindPure ih (hc.mono (by simp)) ?_
        rintro others v' t ⟨ho, rfl⟩
        exact ⟨.cons (hm s) ho, rfl⟩
      · refine (After.bind .globalVar hc.add fun d v _ hd => .bindPure ih (hc.mono ?_) ?_).fulfils c' h
        · cases hd
          simp
        · rintro others v' t ⟨ho, rfl⟩
          exact ⟨.cons hd ho, rfl⟩

/-! ## Whatever is read is derived -/

/-- The outcome of a reader that is given the tokens that remain. -/
theorem Recognizes.fulfils {p : Nat → Parser α} {L : Language α} (h : ∀ n, Recognizes n (p n) L)
    (hc : ∀ l ∈ c.rest, l.token ≠ .eof) : Fulfils c L ((remaining >>= p).run c) := by
  rw [run_bind, run_remaining]
  exact (h _ c ⟨Nat.le_refl _, hc⟩).fulfils c (.refl c)

theorem expression_fulfils (hc : ∀ l ∈ c.rest, l.token ≠ .eof) :
    Fulfils c (exprs Stratum.all) (expression.run c) :=
  Recognizes.fulfils (fun _ => .expression) hc

theorem statement_fulfils (hc : ∀ l ∈ c.rest, l.token ≠ .eof) : Fulfils c stmts (statement.run c) :=
  Recognizes.fulfils (fun _ => .statement) hc

theorem program_fulfils (hc : ∀ l ∈ c.rest, l.token ≠ .eof) :
    Fulfils c (fun w p t => programs w p.items t) (program.run c) :=
  Recognizes.fulfils (fun _ _ hc => .bindPure .items hc.add fun _ _ _ h => h) hc

/-- A program that is read is derived from all tokens before the end mark. -/
theorem derived_of_run_program {ts : List Lexeme} {e : Lexeme} {p : Program} {c' : Cursor}
    (he : e.token = .eof) (hts : ∀ l ∈ ts, l.token ≠ .eof)
    (hp : program.run (Cursor.ofTokens (ts ++ [e])) = .ok p c') :
    ItemsDerived ArgsDerived (ts.map Lexeme.flat) p.items := by
  have hrest := Cursor.rest_ofTokens_append hts he
  have hf := program_fulfils (c := Cursor.ofTokens (ts ++ [e])) (by rwa [hrest])
  rw [hp] at hf
  obtain ⟨w, hr, hd, ht⟩ := hf
  have hc' : c'.Within ts.length :=
    (Cursor.Within.add ⟨Nat.le_of_eq (by rw [hrest]), by rwa [hrest]⟩).of_reads hr
  rwa [← hrest, hr.flat_eq, hc'.rest_eq_nil ht, List.map_nil, List.append_nil]

/-- Whatever is read from scanned text is derived: a program is derived from all of its tokens, and a
statement or an expression that is read somewhere in it from the tokens that were taken. -/
theorem scanned_readings_derived {source : String} {tokens : List Lexeme}
    (h : tokenize source = .ok tokens) :
    (∀ p c', program.run (Cursor.ofTokens tokens) = .ok p c' →
      ∃ ts e, tokens = ts ++ [e] ∧ e.token = .eof ∧
        ItemsDerived ArgsDerived (ts.map Lexeme.flat) p.items) ∧
    ∀ c : Cursor, c.rest <:+ (Cursor.ofTokens tokens).rest →
      (∀ s c', statement.run c = .ok s c' →
        ∃ ts isOpen, c.rest = ts ++ c'.rest ∧
          StmtDerived ArgsDerived isOpen (ts.map Lexeme.flat) s ∧
          (isOpen = true → c'.head.token ≠ .keyElse)) ∧
      ∀ e c', expression.run c = .ok e c' →
        ∃ ts, c.rest = ts ++ c'.rest ∧ ExprDerived Stratum.all (ts.map Lexeme.flat) e := by
  obtain ⟨ts, e, rfl, he, hts, -⟩ := tokenize_ok h
  have hrest := Cursor.rest_ofTokens_append hts he
  refine ⟨fun p c' hp => ⟨ts, e, rfl, he, derived_of_run_program he hts hp⟩, fun c hc => ?_⟩
  have hc' : ∀ l ∈ c.rest, l.token ≠ .eof := fun l hl => hts l (hrest ▸ hc.subset hl)
  refine ⟨fun s c' hs => ?_, fun e c' hs => ?_⟩
  · have hf := statement_fulfils hc'
    rw [hs] at hf
    obtain ⟨w, ⟨-, u, hu, rfl⟩, isOpen, hd, ho⟩ := hf
    exact ⟨u, isOpen, hu, hd, ho⟩
  · have hf := expression_fulfils hc'
    rw [hs] at hf
    obtain ⟨w, ⟨-, u, hu, rfl⟩, hd⟩ := hf
    exact ⟨u, hu, hd⟩

/-- A source with two choices, of which the inner one has the `else`. -/
def danglingElse : String :=
  "bool a; def Main() \x7b if (a) if (!a) a = a; else return(a,); \x7d"

theorem scanned_readings_derived_danglingElse :
    ∃ ts e p c', tokenize danglingElse = .ok (ts ++ [e]) ∧
      program.run (Cursor.ofTokens (ts ++ [e])) = .ok p c' ∧
      ItemsDerived ArgsDerived (ts.map Lexeme.flat) p.items := by
  have hread : Program.isRead danglingElse = true := by decide +kernel
  obtain ⟨tokens, p, c', ht, hr⟩ := Program.run_of_isRead hread
  obtain ⟨ts, e, rfl, -, hd⟩ := (scanned_readings_derived ht).1 p c' hr
  exact ⟨ts, e, p, c', ht, hr, hd⟩

/-- A statement that starts with `return` has values between parentheses. -/
theorem exists_values {Values : List Lexeme → List Expr → Prop} {isOpen : Bool} {s : Span}
    {stmt : Stmt} (h : StmtDerived Values isOpen (⟨.keyReturn, s⟩ :: w) stmt) :
    ∃ a values o k e, Values a values ∧
      w = ⟨.lparen 0, o⟩ :: a ++ [⟨.rparen 0, k⟩, ⟨.semicolon, e⟩] := by
  cases h with
  | ret ha hw =>
    cases hw
    exact ⟨_, _, _, _, _, ha, rfl⟩
  | _ => rename_i hw; cases hw

/-- Values without a comma behind the last one do not account for all that is read: the tokens of this
`return` are taken, and then they are no statement. -/
theorem trailing_comma_read :
    ∃ tokens s c', tokenize "return(x,);" = .ok tokens ∧
      statement.run (Cursor.ofTokens tokens) = .ok s c' ∧ c'.rest = [] ∧
      ∀ isOpen s, ¬ StmtDerived ValuesDerived isOpen ((Cursor.ofTokens tokens).rest.map Lexeme.flat) s := by
  have hr : ((tokenize "return(x,);").toOption.any fun tokens =>
      match statement.run (Cursor.ofTokens tokens) with
      | .ok _ c' => c'.rest.isEmpty
      | .error _ _ => false) = true := by decide +kernel
  obtain ⟨tokens, ht, hw⟩ : ∃ tokens, tokenize "return(x,);" = .ok tokens ∧
      (Cursor.ofTokens tokens).rest.map Lexeme.flat =
        [⟨.keyReturn, ⟨0, 6⟩⟩, ⟨.lparen 0, ⟨6, 7⟩⟩, ⟨.ident "x", ⟨7, 8⟩⟩, ⟨.comma, ⟨8, 9⟩⟩,
          ⟨.rparen 0, ⟨9, 10⟩⟩, ⟨.semicolon, ⟨10, 11⟩⟩] := ⟨_, rfl, rfl⟩
  rw [ht] at hr
  simp only [Except.toOption, Option.any_some] at hr
  split at hr
  · next s c' hs =>
    refine ⟨tokens, s, c', ht, hs, by simpa using hr, fun isOpen s hd => ?_⟩
    obtain ⟨a, values, o, k, e, ha, hv⟩ := exists_values (hw ▸ hd)
    have ha' : a = [⟨.ident "x", ⟨7, 8⟩⟩, ⟨.comma, ⟨8, 9⟩⟩] := by
      have hv : [⟨.ident "x", ⟨7, 8⟩⟩, ⟨.comma, ⟨8, 9⟩⟩] ++ [_, _] = a ++ [_, _] := (List.cons.inj hv).2
      exact (List.append_inj_left' hv rfl).symm
    -- The last value would end in a comma.
    cases ha with
    | none => cases ha'
    | some hl =>
      obtain ⟨v, l, rfl, hend⟩ := hl.ends
      obtain rfl : l = ⟨.comma, ⟨8, 9⟩⟩ := by simpa using congrArg List.getLast? ha'
      cases hend
  · cases hr

end Parser

end ScriptGraph
