import ScriptGraph.Proofs.Parsing.Continuation

/-!
# Readers in a source that goes on

Every reader of the language is followed by the same reader with more tokens behind it, a larger bound
and another way to find closing brackets. By induction on the bound, with two facts that each reader
hands on: how many tokens are left, and that the brackets it opened are closed.

* `Follows.program` — the judgement for whole programs;
* `scanned_closing_by_kind` — in scanned text the depth of a closing bracket never decides anything.
-/

namespace ScriptGraph

namespace Parser

variable {α : Type} {x : Continuation} {closing : Closing} {N n m : Nat} {d : Depths} {c : Cursor}

/-- On sources of at most `N` tokens, the reader `q` follows `p`, which takes a token and closes the
brackets that it opens. -/
def Pursues (x : Continuation) (N : Nat) (p q : Parser α) : Prop :=
  ∀ (c : Cursor) (d : Depths) (n : Nat), n ≤ N → c.At d n →
    Follows x p q c fun _ c' => c'.At d (n - 1)

/-! ## Depths behind an opening bracket -/

theorem lparen_eq {l : Lexeme} (h : l.token = d.mark (.lparen 0)) :
    l.token = .lparen ((d.next (.lparen 0)).parens - 1) := by
  simpa [Depths.mark, Depths.next] using h

theorem next_lparen_sub :
    (⟨(d.next (.lparen 0)).braces, (d.next (.lparen 0)).parens - 1⟩ : Depths) = d := by
  simp [Depths.next]

theorem lbrace_eq {l : Lexeme} (h : l.token = d.mark (.lbrace 0)) :
    l.token = .lbrace ((d.next (.lbrace 0)).braces - 1) := by
  simpa [Depths.mark, Depths.next] using h

theorem next_lbrace_sub :
    (⟨(d.next (.lbrace 0)).braces - 1, (d.next (.lbrace 0)).parens⟩ : Depths) = d := by
  simp [Depths.next]

/-! ## Expressions -/

theorem Follows.chainFrom {stratum : Stratum} {operand operand' : Parser Expr}
    (hs : ∀ t op, stratum t = some op → t.depth? = none) (hop : Pursues x N operand operand')
    (hn : n ≤ N) (hm : n ≤ m) (hc : c.At d n) (left : Expr) :
    Follows x (chainFrom stratum operand m left) (chainFrom stratum operand' (x.count + m) left) c
      fun _ c' => c'.At d n := by
  induction m generalizing n c left with
  | zero =>
    refine .undecided (fun hx => by subst hx; rfl) ⟨?_, hc⟩
    exact List.eq_nil_of_length_eq_zero (Nat.le_zero.mp (Nat.le_trans hc.length_le hm))
  | succ m ih =>
    rcases ho : stratum c.head.token with _ | op
    · refine .step ?_ (fun hx => ?_) id (.pure (a := left) hc)
      · simp [Parser.chainFrom, ho]
      · simp [Parser.chainFrom, Cursor.head_extend hx, ho]
    · have htail := hc.tail
      rw [Depths.next_of_depth? d (hs _ _ ho)] at htail
      have hrest : Follows x _ _ c.tail fun _ c' => c'.At d n :=
        .bind (hop _ _ _ (Nat.le_trans (Nat.sub_le ..) hn) htail) fun right c' hc' =>
          (ih (by omega) (by omega) hc' (.binary op left right)).mono fun _ _ h => h.mono (by omega)
      refine .step ?_ (fun hx => ?_) Cursor.rest_tail_of_nil hrest
      · simp [Parser.chainFrom, ho]
      · simp [Parser.chainFrom, Cursor.head_extend hx, Cursor.tail_extend hx, ho]

theorem Pursues.chain {stratum : Stratum} {operand operand' : Parser Expr}
    (hs : ∀ t op, stratum t = some op → t.depth? = none) (hop : Pursues x N operand operand') :
    Pursues x N (chain N stratum operand) (chain (x.count + N) stratum operand') := by
  intro c d n hn hc
  exact .bind (hop _ _ _ hn hc) fun left c' hc' => .chainFrom hs hop (by omega) (by omega) hc' left

theorem Pursues.strata {factor factor' : Parser Expr} (hf : Pursues x N factor factor') :
    Pursues x N (strata N factor) (strata (x.count + N) factor') := by
  have hall : ∀ {strata : List Stratum}, strata <:+ Stratum.all →
      Pursues x N (strata.foldr (Parser.chain N) factor)
        (strata.foldr (Parser.chain (x.count + N)) factor') := by
    intro strata hs
    induction strata with
    | nil => exact hf
    | cons stratum strata ih =>
      exact .chain (fun t op => Stratum.depth?_of_mem (hs.subset (List.mem_cons_self ..)))
        (ih ((List.suffix_cons ..).trans hs))
  exact hall (List.suffix_refl _)

/-- Arguments are read behind an opening parenthesis, with the closing one. -/
theorem Follows.arguments {expression expression' : Parser Expr} {opening : Lexeme}
    (hx : Closes x closing) (he : Pursues x N expression expression')
    (ho : opening.token = .lparen (d.parens - 1)) (hn : n ≤ N) (hm : n ≤ m) (hc : c.At d n) :
    Follows x (arguments eatExact expression opening m)
      (arguments closing expression' opening (x.count + m)) c
      fun _ c' => c'.At ⟨d.braces, d.parens - 1⟩ (n - 1) := by
  have hdepth : opening.token.depth?.getD 0 = d.parens - 1 := by rw [ho]; rfl
  induction m generalizing n c with
  | zero => exact .undecided (fun hx => by subst hx; rfl) rfl
  | succ m ih =>
    rw [Parser.arguments, ← Nat.add_assoc, Parser.arguments, hdepth]
    simp only [discard_bind]
    refine .ifClosing hx hc rfl rfl (fun c' hc' => .pure hc') ?_
    refine .ifAtEnd (fun _ => .unfinished rfl) ?_
    refine .bind (he _ _ _ hn hc) fun arg c' hc' => ?_
    have hrest : ∀ c'', c''.At d (n - 1) →
        Follows x _ _ c'' fun _ c' => c'.At ⟨d.braces, d.parens - 1⟩ (n - 1) := fun c'' hc'' =>
      .bind (ih (by omega) (by omega) hc'') fun args c₁ hc₁ =>
        .pure (a := arg :: args) (hc₁.mono (Nat.sub_le ..))
    refine .ifCheck (fun _ => hrest c' hc') ?_
    exact .expect rfl hc' fun _ c'' _ hc'' => hrest c'' (hc''.mono (by omega))

theorem Follows.closeParen {opening : Lexeme} {expected : String} (hx : Closes x closing)
    (ho : opening.token = .lparen (d.parens - 1)) (hc : c.At d n) :
    Follows x (closeParen eatExact opening expected) (closeParen closing opening expected) c
      fun _ c' => c'.At ⟨d.braces, d.parens - 1⟩ (n - 1) := by
  have hdepth : opening.token.depth?.getD 0 = d.parens - 1 := by rw [ho]; rfl
  rw [Parser.closeParen, Parser.closeParen, hdepth]
  refine .ifClosing hx hc rfl rfl (fun c' hc' => .pure hc') ?_
  exact .ifAtEnd (fun _ => .unfinished rfl) (.failHere expected)

theorem Pursues.callTail {expression expression' : Parser Expr} (hx : Closes x closing)
    (he : Pursues x N expression expression') :
    Pursues x N (callTail eatExact N expression) (callTail closing (x.count + N) expression') := by
  intro c d n hn hc
  rw [Parser.callTail, Parser.callTail]
  simp only [discard_bind]
  refine .expect rfl hc fun _ c₁ _ h₁ => .expectIdent h₁ fun member c₂ h₂ => ?_
  refine .expect rfl h₂ fun o c₃ ho h₃ => ?_
  refine .bind (.arguments hx he (lparen_eq ho) (by omega) (by omega) h₃) fun args c₄ h₄ => .pure ?_
  rw [next_lparen_sub] at h₄
  exact h₄.mono (by omega)

/-- A number literal does not look at the cursor. -/
theorem Agrees.numberLiteral (text : String) (s : Span) {Q : Expr → Cursor → Prop} (hQ : ∀ e, Q e c) :
    Agrees x (numberLiteral text s) (numberLiteral text s) c Q := by
  constructor
  · intro _
    simp only [run_numberLiteral]
    cases Binary32.ofText? text <;> rfl
  · intro e c' h
    simp only [run_numberLiteral] at h
    split at h <;> cases h
    exact hQ _

/-- A refusal of a token already taken does not look at the cursor. -/
theorem Agrees.failAt {l : Lexeme} {expected : String} {Q : α → Cursor → Prop} :
    Agrees x (failAt l expected) (failAt l expected) c Q := by
  constructor
  · intro _
    rw [run_failAt, run_failAt]
    rfl
  · intro a c' h
    rw [run_failAt] at h
    cases h

theorem Follows.failAt_eof {l : Lexeme} {expected : String} {Q : α → Cursor → Prop}
    (hl : l.token = .eof) : Follows x (failAt l expected) (failAt l expected) c Q := by
  refine .undecided (fun _ => rfl) ?_
  simp [Lexeme.refusal, hl, SourceError.isRejection]

/-- A point goes before digits. -/
theorem Follows.fraction {s : Span} (hc : c.At d n) :
    Follows x (do
      match (← Parser.peek).token with
      | .number digits =>
        let last ← Parser.advance
        Parser.numberLiteral ("0." ++ digits) (s.merge last.span)
      | _ => Parser.failHere "digits after '.'") (do
      match (← Parser.peek).token with
      | .number digits =>
        let last ← Parser.advance
        Parser.numberLiteral ("0." ++ digits) (s.merge last.span)
      | _ => Parser.failHere "digits after '.'") c fun _ c' => c'.At d (n - 1) := by
  by_cases ht : ∃ digits, c.head.token = .number digits
  · obtain ⟨digits, ht⟩ := ht
    have hn : c.rest ≠ [] := fun hn => by simp [Cursor.token_head_of_nil hn] at ht
    have htail := hc.tail
    rw [ht] at htail
    refine ⟨.step ?_ ?_ (.numberLiteral ("0." ++ digits) (s.merge c.head.span) fun _ => htail),
      fun hn' => absurd hn' hn⟩
    · simp [ht]
    · simp [Cursor.head_extend (.inr hn), Cursor.tail_extend (.inr hn), ht]
  · refine .step ?_ (fun hx => ?_) id (.failHere "digits after '.'")
    · rw [run_bind, run_peek]
      dsimp only
      split
      · exact absurd ⟨_, ‹_›⟩ ht
      · rfl
    · rw [run_bind, run_peek, Cursor.head_extend hx]
      dsimp only
      split
      · exact absurd ⟨_, ‹_›⟩ ht
      · rfl

theorem Pursues.factor (hx : Closes x closing) :
    Pursues x N (factor eatExact N) (factor closing (x.count + N)) := by
  induction N with
  | zero =>
    intro c d n hn hc
    have hnil : c.rest = [] :=
      List.eq_nil_of_length_eq_zero (Nat.le_zero.mp (Nat.le_trans hc.length_le hn))
    refine .undecided (fun hx => by subst hx; rfl) ?_
    simp [Parser.factor, Lexeme.refusal, Cursor.token_head_of_nil hnil, SourceError.isRejection]
  | succ N ih =>
    intro c d n hn hc
    rw [Parser.factor, ← Nat.add_assoc, Parser.factor]
    have he := ih.strata
    refine .advance hc (fun l hl => ?_) fun l c' hl hm hc' => ?_
    · simp only [hl]
      exact .failAt_eof hl
    · rcases l with ⟨t, s⟩
      cases t with
      | number text => exact .numberLiteral _ _ fun _ => hc'
      | dot => exact ((Follows.fraction hc').mono fun _ _ h => h.mono (by omega)).toAgrees
      | lparen k =>
        refine (Follows.bind (he _ _ _ (by omega) hc') fun e c₁ h₁ => ?_).toAgrees
        refine .bind (.closeParen hx (lparen_eq hm.symm) h₁) fun _ c₂ h₂ => .pure ?_
        rw [next_lparen_sub] at h₂
        exact h₂.mono (by omega)
      | ident text => exact (Follows.pure (Q := fun _ c' => c'.At d (n - 1)) hc').toAgrees
      | minus =>
        refine (Follows.bind (ih _ _ _ (by omega) hc') fun e c₁ h₁ => .pure ?_).toAgrees
        exact h₁.mono (Nat.sub_le ..)
      | bang =>
        refine (Follows.bind (ih _ _ _ (by omega) hc') fun e c₁ h₁ => .pure ?_).toAgrees
        exact h₁.mono (Nat.sub_le ..)
      | keyNew =>
        refine (Follows.expectTypeName hc' fun type c₁ h₁ => .expect rfl h₁ fun o c₂ ho h₂ => ?_).toAgrees
        refine .bind (.arguments hx he (lparen_eq ho) (by omega) (by omega) h₂) fun args c₃ h₃ => .pure ?_
        rw [next_lparen_sub] at h₃
        exact h₃.mono (by omega)
      | qualifier receiver =>
        refine (Follows.bind (he.callTail hx _ _ _ (by omega) hc') fun _ c₁ h₁ => .pure ?_).toAgrees
        exact h₁.mono (Nat.sub_le ..)
      | eof => exact absurd rfl hl
      | _ => exact .failAt

theorem Pursues.expression (hx : Closes x closing) :
    Pursues x N (expressionWithin eatExact N) (expressionWithin closing (x.count + N)) :=
  (Pursues.factor hx).strata

/-! ## Statements -/

/-- The last token of an assignment operator is taken. -/
theorem Follows.expectAssign {expected : String} {op : AssignOp} (hm : m ≤ n) (hc : c.At d m) :
    Follows x (Parser.expect .assign expected >>= fun _ => Pure.pure op)
      (Parser.expect .assign expected >>= fun _ => Pure.pure op) c fun _ c' => c'.At d (n - 1) :=
  .expect rfl hc fun _ _ _ hc' => .pure (hc'.mono (by omega))

theorem Follows.assignOp (hc : c.At d n) : Follows x assignOp assignOp c fun _ c' => c'.At d (n - 1) := by
  have hn : n - 1 ≤ n := Nat.sub_le ..
  rw [Parser.assignOp]
  simp only [discard_bind]
  refine .ifEat rfl hc (fun c₁ h₁ => .ifEat rfl h₁ (fun c₂ h₂ => .pure (h₂.mono (by omega))) ?_) ?_
  · exact .expectAssign hn h₁
  refine .ifEat rfl hc (fun c₁ h₁ => .ifEat rfl h₁ (fun c₂ h₂ => .pure (h₂.mono (by omega))) ?_) ?_
  · exact .expectAssign hn h₁
  refine .ifEat rfl hc (fun c₁ h₁ => .expectAssign hn h₁) ?_
  refine .ifEat rfl hc (fun c₁ h₁ => .expectAssign hn h₁) ?_
  refine .ifEat rfl hc (fun c₁ h₁ => .expectAssign hn h₁) ?_
  exact .expectAssign (Nat.le_refl n) hc

theorem Follows.assignValue (hx : Closes x closing) (hn : n ≤ N) (hc : c.At d n) (op : AssignOp) :
    Follows x (assignValue eatExact N op) (assignValue closing (x.count + N) op) c
      fun _ c' => c'.At d n := by
  have he : Follows x (expressionWithin eatExact N) (expressionWithin closing (x.count + N)) c
      fun _ c' => c'.At d n := (Pursues.expression hx _ _ _ hn hc).mono fun _ _ h => h.mono (Nat.sub_le ..)
  cases op with
  | increment => exact .pure hc
  | decrement => exact .pure hc
  | _ => exact he

/-- Statements are read behind an opening brace, with the closing one. -/
theorem Follows.block {statement statement' : Parser Stmt} {opening : Lexeme} (hx : Closes x closing)
    (hs : Pursues x N statement statement') (ho : opening.token = .lbrace (d.braces - 1)) (hn : n ≤ N)
    (hm : n ≤ m) (hc : c.At d n) :
    Follows x (block eatExact statement opening m) (block closing statement' opening (x.count + m)) c
      fun _ c' => c'.At ⟨d.braces - 1, d.parens⟩ (n - 1) := by
  have hdepth : opening.token.depth?.getD 0 = d.braces - 1 := by rw [ho]; rfl
  induction m generalizing n c with
  | zero => exact .undecided (fun hx => by subst hx; rfl) rfl
  | succ m ih =>
    rw [Parser.block, ← Nat.add_assoc, Parser.block, hdepth]
    refine .ifClosing hx hc rfl rfl (fun c' hc' => .pure hc') ?_
    refine .ifAtEnd (fun _ => .unfinished rfl) ?_
    refine .bind (hs _ _ _ hn hc) fun s c₁ h₁ => ?_
    exact .bind (ih (by omega) (by omega) h₁) fun others c₂ h₂ => .pure (h₂.mono (by omega))

theorem Pursues.branchBody {statement statement' : Parser Stmt} (hx : Closes x closing)
    (hs : Pursues x N statement statement') :
    Pursues x N (branchBody eatExact N statement) (branchBody closing (x.count + N) statement') := by
  intro c d n hn hc
  rw [Parser.branchBody, Parser.branchBody]
  refine .eat? rfl hc (fun o c₁ ho h₁ => ?_) ?_
  · refine (Follows.block hx hs (lbrace_eq ho) (by omega) (by omega) h₁).mono fun _ c₂ h₂ => ?_
    rw [next_lbrace_sub] at h₂
    exact h₂.mono (Nat.sub_le ..)
  · exact .bind (hs _ _ _ hn hc) fun s c₁ h₁ => .pure h₁

theorem Pursues.statement (hx : Closes x closing) :
    Pursues x N (statementWithin eatExact N) (statementWithin closing (x.count + N)) := by
  induction N with
  | zero =>
    intro c d n hn hc
    have hnil : c.rest = [] :=
      List.eq_nil_of_length_eq_zero (Nat.le_zero.mp (Nat.le_trans hc.length_le hn))
    refine .undecided (fun hx => by subst hx; rfl) ?_
    simp [Parser.statementWithin, Lexeme.refusal, Cursor.token_head_of_nil hnil, SourceError.isRejection]
  | succ N ih =>
    intro c d n hn hc
    rw [Parser.statementWithin, ← Nat.add_assoc, Parser.statementWithin]
    simp only [discard_bind, bind_map_left, pure_bind]
    have he := Pursues.expression (N := N) hx
    refine .advance hc (fun l hl => ?_) fun l c' hl hm hc' => ?_
    · simp only [hl]
      exact .failAt_eof hl
    · rcases l with ⟨t, s⟩
      cases t with
      | keyIf =>
        refine (Follows.expect rfl hc' fun o c₁ ho h₁ => ?_).toAgrees
        refine .bind (he _ _ _ (by omega) h₁) fun test c₂ h₂ => ?_
        refine .bind (.closeParen hx (lparen_eq ho) h₂) fun _ c₃ h₃ => ?_
        rw [next_lparen_sub] at h₃
        refine .bind (ih.branchBody hx _ _ _ (by omega) h₃) fun thenBody c₄ h₄ => ?_
        refine .ifEat rfl h₄ (fun c₅ h₅ => ?_) (.spanFrom fun _ => .pure (h₄.mono (by omega)))
        refine .bind (ih.branchBody hx _ _ _ (by omega) h₅) fun elseBody c₆ h₆ => ?_
        exact .spanFrom fun _ => .pure (h₆.mono (by omega))
      | typeName type =>
        refine (Follows.expectIdent hc' fun name c₁ h₁ => .ifEat rfl h₁ (fun c₂ h₂ => ?_) ?_).toAgrees
        · refine .bind (he _ _ _ (by omega) h₂) fun init c₃ h₃ => .expect rfl h₃ fun _ c₄ _ h₄ => ?_
          exact .spanFrom fun _ => .pure (h₄.mono (by omega))
        · exact .expect rfl h₁ fun _ c₂ _ h₂ => .spanFrom fun _ => .pure (h₂.mono (by omega))
      | keyPublic =>
        refine (Follows.expectTypeName hc' fun type c₁ h₁ => .expectIdent h₁ fun name c₂ h₂ => ?_).toAgrees
        refine .ifCheck (fun hk => .rejected fun hn => ?_) ?_
        · rw [Cursor.token_head_of_nil hn] at hk
          cases hk
        · exact .expect rfl h₂ fun _ c₃ _ h₃ => .spanFrom fun _ => .pure (h₃.mono (by omega))
      | ident name =>
        refine (Follows.bind (.assignOp hc') fun op c₁ h₁ => ?_).toAgrees
        refine .bind (.assignValue hx (by omega) h₁ op) fun value c₂ h₂ => ?_
        exact .expect rfl h₂ fun _ c₃ _ h₃ => .spanFrom fun _ => .pure (h₃.mono (by omega))
      | qualifier receiver =>
        refine (Follows.bind (he.callTail hx _ _ _ (by omega) hc') fun call c₁ h₁ => ?_).toAgrees
        exact .expect rfl h₁ fun _ c₂ _ h₂ => .spanFrom fun _ => .pure (h₂.mono (by omega))
      | keyReturn =>
        refine (Follows.expect rfl hc' fun o c₁ ho h₁ => ?_).toAgrees
        refine .bind (.arguments hx he (lparen_eq ho) (by omega) (by omega) h₁) fun values c₂ h₂ => ?_
        rw [next_lparen_sub] at h₂
        exact .expect rfl h₂ fun _ c₃ _ h₃ => .spanFrom fun _ => .pure (h₃.mono (by omega))
      | eof => exact absurd rfl hl
      | _ => exact .failAt

/-! ## Programs -/

theorem Follows.parameters (hm : n ≤ m) (hc : c.At d n) :
    Follows x (parameters m) (parameters (x.count + m)) c
      fun _ c' => c'.At ⟨d.braces, d.parens - 1⟩ (n - 1) := by
  induction m generalizing n c with
  | zero =>
    have hnil : c.rest = [] :=
      List.eq_nil_of_length_eq_zero (Nat.le_zero.mp (Nat.le_trans hc.length_le hm))
    refine .undecided (fun hx => by subst hx; rfl) ?_
    simp [Parser.parameters, Lexeme.refusal, Cursor.token_head_of_nil hnil, SourceError.isRejection]
  | succ m ih =>
    rw [Parser.parameters, ← Nat.add_assoc, Parser.parameters]
    simp only [discard_bind]
    refine .expectTypeName hc fun type c₁ h₁ => .expectIdent h₁ fun name c₂ h₂ => ?_
    refine .ifEat rfl h₂ (fun c₃ h₃ => .pure (h₃.mono (by omega))) ?_
    refine .expect rfl h₂ fun _ c₃ _ h₃ => .bind (ih (by omega) h₃) fun others c₄ h₄ => ?_
    exact .pure (h₄.mono (by omega))

/-- A method goes on behind its parameters. -/
theorem Follows.methodBody (hx : Closes x closing) (hn : n ≤ N) (hc : c.At d n) (name : Name)
    (params : List Parameter) :
    Follows x
      (do
        let opening ← Parser.expect (.lbrace 0) "'\x7b' to begin method"
        let body ← Parser.block eatExact (statementWithin eatExact N) opening N
        return Method.mk name params body)
      (do
        let opening ← Parser.expect (.lbrace 0) "'\x7b' to begin method"
        let body ← Parser.block closing (statementWithin closing (x.count + N)) opening (x.count + N)
        return Method.mk name params body) c fun _ c' => c'.At d n := by
  refine .expect rfl hc fun o c₁ ho h₁ => ?_
  refine .bind (.block hx (.statement hx) (lbrace_eq ho) (by omega) (by omega) h₁) fun body c₂ h₂ => ?_
  rw [next_lbrace_sub] at h₂
  exact .pure (h₂.mono (by omega))

theorem Pursues.method (hx : Closes x closing) :
    Pursues x N (method eatExact N) (method closing (x.count + N)) := by
  intro c d n hn hc
  rw [Parser.method, Parser.method]
  simp only [discard_bind, pure_bind]
  refine .expectIdent hc fun name c₁ h₁ => .expect rfl h₁ fun o c₂ ho h₂ => ?_
  refine .ifEat rfl h₂ (fun c₃ h₃ => ?_) (.bind (.parameters (by omega) h₂) fun params c₃ h₃ => ?_)
  · have h₃ : c₃.At d (n - 1) := next_lparen_sub (d := d) ▸ h₃.mono (by omega)
    exact .methodBody hx (by omega) h₃ name []
  · rw [next_lparen_sub] at h₃
    exact .methodBody hx (by omega) (h₃.mono (by omega)) name params

theorem Pursues.globalVar : Pursues x N globalVar globalVar := by
  intro c d n hn hc
  rw [Parser.globalVar]
  simp only [discard_bind]
  refine .expectTypeName hc fun type c₁ h₁ => .expectIdent h₁ fun name c₂ h₂ => ?_
  exact .expect rfl h₂ fun _ c₃ _ h₃ => .pure (h₃.mono (by omega))

theorem Follows.items (hx : Closes x closing) (hn : n ≤ N) (hc : c.At d n) :
    Follows x (items eatExact N) (items closing (x.count + N)) c fun _ _ => True := by
  induction N generalizing n c with
  | zero =>
    refine .undecided (fun hx => by subst hx; rfl) ⟨?_, trivial⟩
    exact List.eq_nil_of_length_eq_zero (Nat.le_zero.mp (Nat.le_trans hc.length_le hn))
  | succ N ih =>
    rw [Parser.items, ← Nat.add_assoc, Parser.items]
    refine .ifAtEnd (fun _ => .pure trivial) (.ifEat rfl hc (fun c₁ h₁ => ?_) ?_)
    · refine .bind (Pursues.method hx _ _ _ (by omega) h₁) fun m c₂ h₂ => ?_
      exact .bind (ih (by omega) h₂) fun _ _ _ => .pure trivial
    · refine .ifCheck (fun _ => ?_) (.failHere _)
      refine .bind (Pursues.globalVar (N := n) _ _ _ (Nat.le_refl n) hc) fun g c₁ h₁ => ?_
      exact .bind (ih (by omega) h₁) fun _ _ _ => .pure trivial

/-! ## Whole sources -/

theorem Follows.expression (hx : Closes x closing) (hc : c.At d c.rest.length) :
    Follows x expression (expressionBy closing) c fun _ c' => c'.At d (c.rest.length - 1) :=
  .remaining (Pursues.expression hx _ _ _ (Nat.le_refl _) hc)

theorem Follows.statement (hx : Closes x closing) (hc : c.At d c.rest.length) :
    Follows x statement (statementBy closing) c fun _ c' => c'.At d (c.rest.length - 1) :=
  .remaining (Pursues.statement hx _ _ _ (Nat.le_refl _) hc)

theorem Follows.program (hx : Closes x closing) (hc : c.At d c.rest.length) :
    Follows x program (programBy closing) c fun _ _ => True :=
  .remaining (.bind (.items hx (Nat.le_refl _) hc) fun _ _ _ => .pure trivial)

/-- Where the source does not go on, every outcome is decided. -/
theorem Agrees.run_eq {p q : Parser α} {Q : α → Cursor → Prop} (h : Agrees none p q c Q) :
    q.run c = p.run c := by
  have hs := h.same
  cases hr : p.run c <;> rw [hr] at hs <;> exact hs (.inl rfl)

/-- In scanned text a closing bracket is known by its kind: whoever asks for the partner of an opening
bracket finds it at the first closing bracket of that kind under the cursor, with the depth of the
opening one. -/
theorem scanned_closing_by_kind {source : String} {tokens : List Lexeme}
    (h : tokenize source = .ok tokens) :
    (programBy eat).run (Cursor.ofTokens tokens) = program.run (Cursor.ofTokens tokens) ∧
    (statementBy eat).run (Cursor.ofTokens tokens) = statement.run (Cursor.ofTokens tokens) ∧
    (expressionBy eat).run (Cursor.ofTokens tokens) = expression.run (Cursor.ofTokens tokens) := by
  obtain ⟨ts, e, rfl, he, hts, hfit⟩ := tokenize_ok h
  have hrest := Cursor.rest_ofTokens_append hts he
  have hc : (Cursor.ofTokens (ts ++ [e])).At .zero (Cursor.ofTokens (ts ++ [e])).rest.length :=
    ⟨by rwa [hrest], by rwa [hrest], Nat.le_refl _⟩
  exact ⟨(Follows.program closes_eat hc).run_eq, (Follows.statement closes_eat hc).run_eq,
    (Follows.expression closes_eat hc).run_eq⟩

/-- A source with brackets of both kinds inside of each other. -/
def nestedBrackets : String :=
  "bool a; def Main() \x7b if ((a)) \x7b a = ((a) && (a)); \x7d \x7d"

theorem scanned_closing_by_kind_nestedBrackets :
    ∃ tokens p c', tokenize nestedBrackets = .ok tokens ∧
      program.run (Cursor.ofTokens tokens) = .ok p c' ∧
      (programBy eat).run (Cursor.ofTokens tokens) = .ok p c' := by
  have hread : Program.isRead nestedBrackets = true := by decide +kernel
  obtain ⟨tokens, p, c', ht, hr⟩ := Program.run_of_isRead hread
  exact ⟨tokens, p, c', ht, hr, (scanned_closing_by_kind ht).1.trans hr⟩

/-- With a depth that no scanner gives, the kind alone finds another partner. -/
example :
    let c : Cursor := ⟨[⟨.lparen 0, ⟨0, 1⟩⟩, ⟨.ident "x", ⟨1, 2⟩⟩, ⟨.rparen 1, ⟨2, 3⟩⟩], ⟨3, 3⟩, ⟨3, 3⟩⟩
    (expressionBy eat).run c = .ok (.var ⟨"x", ⟨1, 2⟩⟩) ⟨[], ⟨3, 3⟩, ⟨2, 3⟩⟩ ∧
      ∃ c', expression.run c = .error (.unexpectedToken ⟨2, 3⟩ "')' after expression" ")") c' :=
  ⟨rfl, _, rfl⟩

end Parser

end ScriptGraph
