import ScriptGraph.Proofs.Token.Spelling
import ScriptGraph.Proofs.Tree.Change

/-!
# Programs written down

How a tree is written, apart from the grammar that reads it.

* `Change.unplaced`, `Expr.unplaced`, `Program.unplaced` — a tree without its places;
* `Expr.Writable`, `Stmt.Writable`, `Program.Writable` — trees whose names, types and numbers have a
  spelling, and which no declaration, increment or method keeps from being a program;
* `ExprWritten k ts e` — the tokens `ts` are the expression `e`, and `k` is the strength of its loosest
  operator outside of parentheses. An operand that is too loose for its place has to be put in
  parentheses; any other may be;
* `StmtWritten`, `BodyWritten`, `ItemWritten`, `ItemsWritten` — statements, with braces around every
  branch, and declarations;
* `Program.Renders p text` — the text is the program, in tokens laid out as in `Laid`.

A writable program has such a text (`Program.exists_renders`).
-/

namespace ScriptGraph

/-! ## Trees without places -/

/-- A name without its place. -/
def Name.unplaced (name : Name) : Name :=
  ⟨name.text, ⟨0, 0⟩⟩

/-- The change that takes the places out of a tree. -/
def Change.unplaced : Change where
  name := Name.unplaced
  place _ := ⟨0, 0⟩

@[simp] theorem Change.unplaced_name (name : Name) : Change.unplaced.name name = name.unplaced :=
  rfl

@[simp] theorem Change.unplaced_place (span : Span) : Change.unplaced.place span = ⟨0, 0⟩ := rfl

/-- An expression without its places. -/
abbrev Expr.unplaced (e : Expr) : Expr :=
  e.map .unplaced

/-- A program without its places. -/
abbrev Program.unplaced (p : Program) : Program :=
  p.map .unplaced

/-! ## Trees that can be written -/

/-- Is a name an identifier? -/
def Name.isIdent (name : Name) : Bool :=
  (Token.ident name.text).isSpelled

/-- Is a name one that a call may start with? -/
def Name.isReceiver (name : Name) : Bool :=
  (Token.qualifier name.text).isSpelled

/-- Is a text the name of a value type? -/
def isTypeText (text : String) : Bool :=
  (Token.typeName text).isSpelled

mutual

/-- The names of an expression can stand where they do, and its numbers have a literal. -/
def Expr.Writable : Expr → Prop
  | .number value => ∃ text, (Token.number text).isSpelled = true ∧ Binary32.ofText? text = some value
  | .var name => name.isIdent = true
  | .neg inner => inner.Writable
  | .not inner => inner.Writable
  | .binary _ left right => left.Writable ∧ right.Writable
  | .call receiver member args =>
    receiver.isReceiver = true ∧ member.isIdent = true ∧ Expr.ArgsWritable args
  | .construct type args => isTypeText type.text = true ∧ Expr.ArgsWritable args

/-- So can all names of some arguments. -/
def Expr.ArgsWritable : List Expr → Prop
  | [] => True
  | arg :: args => arg.Writable ∧ Expr.ArgsWritable args

end

/-- A variable that is shown in the editor has no initial value. -/
def Declaration.Writable (d : Declaration) : Prop :=
  isTypeText d.type = true ∧ d.name.isIdent = true ∧ (∀ init ∈ d.init, init.Writable) ∧
    (d.isPublic = true → d.init = none)

mutual

/-- All names of a statement can stand where they do; an increment and a decrement carry the value
one. -/
def Stmt.Writable : Stmt → Prop
  | .declare d _ => d.Writable
  | .assign target op value _ =>
    target.isIdent = true ∧ if op.isStep then value = .number 1 else value.Writable
  | .branch test thenBody elseBody _ =>
    test.Writable ∧ Stmt.BodyWritable thenBody ∧ Stmt.ElseWritable elseBody
  | .ret values _ => Expr.ArgsWritable values
  | .call receiver member args _ =>
    receiver.isReceiver = true ∧ member.isIdent = true ∧ Expr.ArgsWritable args

/-- So can those of some statements. -/
def Stmt.BodyWritable : List Stmt → Prop
  | [] => True
  | s :: body => s.Writable ∧ Stmt.BodyWritable body

/-- So can those of a second branch. -/
def Stmt.ElseWritable : Option (List Stmt) → Prop
  | none => True
  | some body => Stmt.BodyWritable body

end

/-- A parameter has a type and a name. -/
def Parameter.Writable (p : Parameter) : Prop :=
  isTypeText p.type = true ∧ p.name.isIdent = true

/-- A global variable has no initial value and is not shown in the editor. -/
def Item.Writable : Item → Prop
  | .method m => m.name.isIdent = true ∧ (∀ p ∈ m.params, p.Writable) ∧ Stmt.BodyWritable m.body
  | .globalVar d => d.Writable ∧ d.init = none ∧ d.isPublic = false

/-- Every declaration can be written, and the entry method is the only method. -/
def Program.Writable (p : Program) : Prop :=
  (∀ item ∈ p.items, item.Writable) ∧ ∃ m, p.methods = [m] ∧ m.name.text = entryName

/-! ## Written expressions -/

namespace BinaryOp

/-- How tightly an operator binds: the number of strata that are looser. -/
def strength : BinaryOp → Nat
  | .or => 0
  | .and => 1
  | .eq => 2
  | .lt | .le | .gt | .ge => 3
  | .add | .sub => 4
  | .mul | .div | .mod => 5
  | .pow => 6

/-- The token of an operator. -/
def token : BinaryOp → Token
  | .or => .orOr
  | .and => .andAnd
  | .eq => .eqEq
  | .lt => .less
  | .le => .lessEq
  | .gt => .greater
  | .ge => .greaterEq
  | .add => .plus
  | .sub => .minus
  | .mul => .star
  | .div => .slash
  | .mod => .percent
  | .pow => .power

end BinaryOp

mutual

/-- `ExprWritten k ts e` says that the tokens `ts` are the expression `e`. Outside of parentheses no
operator is looser than `k`; if there is none at all, `k` is 7. -/
inductive ExprWritten : Nat → List Token → Expr → Prop where
  /-- a number, by any literal of its value -/
  | number {text : String} {value : Binary32} (hs : (Token.number text).isSpelled = true)
      (hv : Binary32.ofText? text = some value) : ExprWritten 7 [.number text] (.number value)
  /-- a name -/
  | var {name : Name} : ExprWritten 7 [.ident name.text] (.var name)
  /-- a change of sign, before an operand without operators -/
  | neg {ts : List Token} {e : Expr} (h : ExprWritten 7 ts e) :
      ExprWritten 7 (.minus :: ts) (.neg e)
  /-- a logical negation, before an operand without operators -/
  | not {ts : List Token} {e : Expr} (h : ExprWritten 7 ts e) :
      ExprWritten 7 (.bang :: ts) (.not e)
  /-- any expression in parentheses -/
  | group {k : Nat} {ts : List Token} {e : Expr} (h : ExprWritten k ts e) :
      ExprWritten 7 (.lparen 0 :: ts ++ [.rparen 0]) e
  /-- an operator: the left operand is no looser, the right one tighter -/
  | binary {op : BinaryOp} {i j : Nat} {us vs : List Token} {left right : Expr}
      (hl : ExprWritten i us left) (hr : ExprWritten j vs right) (hi : op.strength ≤ i)
      (hj : op.strength < j) :
      ExprWritten op.strength (us ++ op.token :: vs) (.binary op left right)
  /-- a constructor -/
  | construct {type : Name} {ts : List Token} {args : List Expr} (h : ArgsWritten ts args) :
      ExprWritten 7 (.keyNew :: .typeName type.text :: .lparen 0 :: ts ++ [.rparen 0])
        (.construct type args)
  /-- a call -/
  | call {receiver member : Name} {ts : List Token} {args : List Expr} (h : ArgsWritten ts args) :
      ExprWritten 7
        (.qualifier receiver.text :: .dot :: .ident member.text :: .lparen 0 :: ts ++ [.rparen 0])
        (.call receiver member args)

/-- Expressions with commas between them, at least one. -/
inductive ArgListWritten : List Token → List Expr → Prop where
  /-- one expression -/
  | one {k : Nat} {ts : List Token} {e : Expr} (h : ExprWritten k ts e) : ArgListWritten ts [e]
  /-- an expression before others -/
  | more {k : Nat} {us vs : List Token} {e : Expr} {es : List Expr} (h : ExprWritten k us e)
      (hs : ArgListWritten vs es) : ArgListWritten (us ++ .comma :: vs) (e :: es)

/-- Arguments, perhaps with a comma behind the last one. -/
inductive ArgsWritten : List Token → List Expr → Prop where
  /-- no argument -/
  | none : ArgsWritten [] []
  /-- arguments -/
  | some {ts : List Token} {es : List Expr} (h : ArgListWritten ts es) : ArgsWritten ts es
  /-- arguments with a comma behind them -/
  | trailing {ts : List Token} {es : List Expr} (h : ArgListWritten ts es) :
      ArgsWritten (ts ++ [.comma]) es

end

/-! ## Written statements -/

mutual

/-- `StmtWritten ts s` says that the tokens `ts` are the statement `s`. -/
inductive StmtWritten : List Token → Stmt → Prop where
  /-- a declaration -/
  | declare {type : String} {name : Name} {span : Span} :
      StmtWritten [.typeName type, .ident name.text, .semicolon]
        (.declare ⟨type, name, none, false⟩ span)
  /-- a declaration with an initial value -/
  | declareAs {k : Nat} {ts : List Token} {type : String} {name : Name} {init : Expr} {span : Span}
      (h : ExprWritten k ts init) :
      StmtWritten (.typeName type :: .ident name.text :: .assign :: ts ++ [.semicolon])
        (.declare ⟨type, name, some init, false⟩ span)
  /-- a public declaration -/
  | publish {type : String} {name : Name} {span : Span} :
      StmtWritten [.keyPublic, .typeName type, .ident name.text, .semicolon]
        (.declare ⟨type, name, none, true⟩ span)
  /-- an increment or a decrement -/
  | step {target : Name} {op : AssignOp} {span : Span} (ho : op.isStep = true) :
      StmtWritten (.ident target.text :: op.tokens ++ [.semicolon])
        (.assign target op (.number 1) span)
  /-- an assignment with an operand -/
  | assign {k : Nat} {ts : List Token} {target : Name} {op : AssignOp} {value : Expr} {span : Span}
      (ho : op.isStep = false) (h : ExprWritten k ts value) :
      StmtWritten (.ident target.text :: op.tokens ++ ts ++ [.semicolon])
        (.assign target op value span)
  /-- a call -/
  | call {ts : List Token} {receiver member : Name} {args : List Expr} {span : Span}
      (h : ArgsWritten ts args) :
      StmtWritten
        (.qualifier receiver.text :: .dot :: .ident member.text :: .lparen 0 :: ts ++
          [.rparen 0, .semicolon])
        (.call receiver member args span)
  /-- a return -/
  | ret {ts : List Token} {values : List Expr} {span : Span} (h : ArgsWritten ts values) :
      StmtWritten (.keyReturn :: .lparen 0 :: ts ++ [.rparen 0, .semicolon]) (.ret values span)
  /-- a choice with one branch -/
  | choose {k : Nat} {ts us : List Token} {test : Expr} {body : List Stmt} {span : Span}
      (ht : ExprWritten k ts test) (hb : BodyWritten us body) :
      StmtWritten
        (.keyIf :: .lparen 0 :: ts ++ .rparen 0 :: (.lbrace 0 :: us ++ [.rbrace 0]))
        (.branch test body none span)
  /-- a choice with two branches -/
  | chooseElse {k : Nat} {ts us vs : List Token} {test : Expr} {thenBody elseBody : List Stmt}
      {span : Span} (ht : ExprWritten k ts test) (hb : BodyWritten us thenBody)
      (he : BodyWritten vs elseBody) :
      StmtWritten
        (.keyIf :: .lparen 0 :: ts ++ .rparen 0 :: (.lbrace 0 :: us ++ [.rbrace 0]) ++
          .keyElse :: (.lbrace 0 :: vs ++ [.rbrace 0]))
        (.branch test thenBody (some elseBody) span)

/-- Statements one behind the other. -/
inductive BodyWritten : List Token → List Stmt → Prop where
  /-- no statement -/
  | nil : BodyWritten [] []
  /-- a statement before others -/
  | cons {us vs : List Token} {s : Stmt} {body : List Stmt} (h : StmtWritten us s)
      (hs : BodyWritten vs body) : BodyWritten (us ++ vs) (s :: body)

end

/-! ## Written programs -/

/-- Parameters with commas between them, at least one. -/
inductive ParamListWritten : List Token → List Parameter → Prop where
  /-- one parameter -/
  | one {p : Parameter} : ParamListWritten [.typeName p.type, .ident p.name.text] [p]
  /-- a parameter before others -/
  | more {p : Parameter} {ts : List Token} {params : List Parameter} (h : ParamListWritten ts params) :
      ParamListWritten (.typeName p.type :: .ident p.name.text :: .comma :: ts) (p :: params)

/-- Parameters, with commas between them. -/
inductive ParamsWritten : List Token → List Parameter → Prop where
  /-- no parameter -/
  | none : ParamsWritten [] []
  /-- parameters -/
  | some {ts : List Token} {params : List Parameter} (h : ParamListWritten ts params) :
      ParamsWritten ts params

/-- A declaration at the top level. -/
inductive ItemWritten : List Token → Item → Prop where
  /-- a method -/
  | method {m : Method} {ts us : List Token} (hp : ParamsWritten ts m.params)
      (hb : BodyWritten us m.body) :
      ItemWritten
        (.keyDef :: .ident m.name.text :: .lparen 0 :: ts ++
          .rparen 0 :: .lbrace 0 :: us ++ [.rbrace 0])
        (.method m)
  /-- a global variable -/
  | globalVar {type : String} {name : Name} :
      ItemWritten [.typeName type, .ident name.text, .semicolon]
        (.globalVar ⟨type, name, none, false⟩)

/-- Declarations one behind the other. -/
inductive ItemsWritten : List Token → List Item → Prop where
  /-- no declaration -/
  | nil : ItemsWritten [] []
  /-- a declaration before others -/
  | cons {us vs : List Token} {item : Item} {items : List Item} (h : ItemWritten us item)
      (hs : ItemsWritten vs items) : ItemsWritten (us ++ vs) (item :: items)

/-- The text is the program, written down. -/
def Program.Renders (p : Program) (text : String) : Prop :=
  ∃ ts, ItemsWritten ts p.items ∧ Laid ts text.toList

/-! ## Every writable tree is written somehow -/

theorem BinaryOp.standsAlone_token (op : BinaryOp) : op.token.standsAlone = true := by
  cases op <;> rfl

theorem Legible.braced {ts : List Token} (h : Legible ts) : Legible (.lbrace 0 :: ts ++ [.rbrace 0]) :=
  .cons rfl (h.append (.single rfl))

theorem AssignOp.legible_tokens (op : AssignOp) : Legible op.tokens := by
  cases op <;> first | exact .single rfl | exact .cons rfl (.single rfl)

mutual

/-- What is written for an expression can be laid out. -/
theorem ExprWritten.legible {k : Nat} {ts : List Token} {e : Expr} :
    ExprWritten k ts e → e.Writable → Legible ts
  | .number hs _, _ => .single hs
  | .var, hw => .single hw
  | .neg h, hw => .cons rfl (h.legible hw)
  | .not h, hw => .cons rfl (h.legible hw)
  | .group h, hw => .cons rfl ((h.legible hw).append (.single rfl))
  | .binary hl hr _ _, hw =>
    (hl.legible hw.1).append (.cons (BinaryOp.standsAlone_token _) (hr.legible hw.2))
  | .construct h, hw => .cons rfl (.cons hw.1 (.cons rfl ((h.legible hw.2).append (.single rfl))))
  | .call h, hw =>
    .qualified hw.1 (.cons hw.2.1 (.cons rfl ((h.legible hw.2.2).append (.single rfl))))

theorem ArgListWritten.legible {ts : List Token} {es : List Expr} :
    ArgListWritten ts es → Expr.ArgsWritable es → Legible ts
  | .one h, hw => h.legible hw.1
  | .more h hs, hw => (h.legible hw.1).append (.cons rfl (hs.legible hw.2))

theorem ArgsWritten.legible {ts : List Token} {es : List Expr} :
    ArgsWritten ts es → Expr.ArgsWritable es → Legible ts
  | .none, _ => .nil
  | .some h, hw => h.legible hw
  | .trailing h, hw => (h.legible hw).append (.single rfl)

end

mutual

/-- What is written for a statement can be laid out. -/
theorem StmtWritten.legible {ts : List Token} {s : Stmt} : StmtWritten ts s → s.Writable → Legible ts
  | .declare, hw => .cons hw.1 (.cons hw.2.1 (.single rfl))
  | .declareAs h, hw =>
    .cons hw.1 (.cons hw.2.1 (.cons rfl ((h.legible (hw.2.2.1 _ rfl)).append (.single rfl))))
  | .publish, hw => .cons rfl (.cons hw.1 (.cons hw.2.1 (.single rfl)))
  | .step _, hw => .cons hw.1 ((AssignOp.legible_tokens _).append (.single rfl))
  | .assign ho h, hw =>
    have hv := h.legible (by simpa [ho] using hw.2)
    .cons hw.1 (((AssignOp.legible_tokens _).append hv).append (.single rfl))
  | .call h, hw =>
    .qualified hw.1 (.cons hw.2.1 (.cons rfl ((h.legible hw.2.2).append (.cons rfl (.single rfl)))))
  | .ret h, hw => .cons rfl (.cons rfl ((h.legible hw).append (.cons rfl (.single rfl))))
  | .choose ht hb, hw =>
    .append (.cons rfl (.cons rfl (ht.legible hw.1))) (.cons rfl (hb.legible hw.2.1).braced)
  | .chooseElse ht hb he, hw =>
    .append (.append (.cons rfl (.cons rfl (ht.legible hw.1))) (.cons rfl (hb.legible hw.2.1).braced))
      (.cons rfl (he.legible hw.2.2).braced)

theorem BodyWritten.legible {ts : List Token} {body : List Stmt} :
    BodyWritten ts body → Stmt.BodyWritable body → Legible ts
  | .nil, _ => .nil
  | .cons h hs, hw => (h.legible hw.1).append (hs.legible hw.2)

end

theorem ParamListWritten.legible {ts : List Token} {params : List Parameter}
    (h : ParamListWritten ts params) (hw : ∀ p ∈ params, p.Writable) : Legible ts := by
  induction h with
  | one =>
    obtain ⟨ht, hn⟩ := hw _ List.mem_cons_self
    exact .cons ht (.single hn)
  | more _ ih =>
    obtain ⟨⟨ht, hn⟩, hrest⟩ := List.forall_mem_cons.mp hw
    exact .cons ht (.cons hn (.cons rfl (ih hrest)))

theorem ParamsWritten.legible {ts : List Token} {params : List Parameter} :
    ParamsWritten ts params → (∀ p ∈ params, p.Writable) → Legible ts
  | .none, _ => .nil
  | .some h, hw => h.legible hw

theorem ItemWritten.legible {ts : List Token} {item : Item} :
    ItemWritten ts item → item.Writable → Legible ts
  | .method hp hb, hw =>
    .append (.append (.cons rfl (.cons hw.1 (.cons rfl (hp.legible hw.2.1))))
      (.cons rfl (.cons rfl (hb.legible hw.2.2)))) (.single rfl)
  | .globalVar, hw => .cons hw.1.1 (.cons hw.1.2.1 (.single rfl))

theorem ItemsWritten.legible {ts : List Token} {items : List Item} (h : ItemsWritten ts items)
    (hw : ∀ item ∈ items, item.Writable) : Legible ts := by
  induction h with
  | nil => exact .nil
  | cons h _ ih =>
    obtain ⟨hitem, hrest⟩ := List.forall_mem_cons.mp hw
    exact (h.legible hitem).append (ih hrest)

/-! The simplest way puts every operator with its operands in parentheses. -/

theorem BinaryOp.strength_lt (op : BinaryOp) : op.strength < 7 := by
  cases op <;> decide

theorem ArgsWritten.of_list {es : List Expr} (h : es = [] ∨ ∃ ts, ArgListWritten ts es) :
    ∃ ts, ArgsWritten ts es := by
  rcases h with rfl | ⟨ts, h⟩
  · exact ⟨[], .none⟩
  · exact ⟨ts, .some h⟩

mutual

theorem Expr.exists_written : ∀ e : Expr, e.Writable → ∃ ts, ExprWritten 7 ts e
  | .number _, ⟨_, hs, hv⟩ => ⟨_, .number hs hv⟩
  | .var _, _ => ⟨_, .var⟩
  | .neg inner, hw =>
    let ⟨_, h⟩ := inner.exists_written hw
    ⟨_, .neg h⟩
  | .not inner, hw =>
    let ⟨_, h⟩ := inner.exists_written hw
    ⟨_, .not h⟩
  | .binary op left right, hw =>
    let ⟨_, hl⟩ := left.exists_written hw.1
    let ⟨_, hr⟩ := right.exists_written hw.2
    ⟨_, .group (.binary hl hr (Nat.le_of_lt op.strength_lt) op.strength_lt)⟩
  | .call _ _ args, hw =>
    let ⟨_, h⟩ := ArgsWritten.of_list (Expr.exists_argsWritten args hw.2.2)
    ⟨_, .call h⟩
  | .construct _ args, hw =>
    let ⟨_, h⟩ := ArgsWritten.of_list (Expr.exists_argsWritten args hw.2)
    ⟨_, .construct h⟩

theorem Expr.exists_argsWritten :
    ∀ es : List Expr, Expr.ArgsWritable es → es = [] ∨ ∃ ts, ArgListWritten ts es
  | [], _ => .inl rfl
  | e :: es, hw =>
    let ⟨_, h⟩ := e.exists_written hw.1
    match es, Expr.exists_argsWritten es hw.2 with
    | _, .inl rfl => .inr ⟨_, .one h⟩
    | _, .inr ⟨_, hs⟩ => .inr ⟨_, .more h hs⟩

end

mutual

theorem Stmt.exists_written : ∀ s : Stmt, s.Writable → ∃ ts, StmtWritten ts s
  | .declare ⟨_, _, none, false⟩ _, _ => ⟨_, .declare⟩
  | .declare ⟨_, _, none, true⟩ _, _ => ⟨_, .publish⟩
  | .declare ⟨_, _, some init, false⟩ _, hw =>
    let ⟨_, h⟩ := init.exists_written (hw.2.2.1 init rfl)
    ⟨_, .declareAs h⟩
  | .declare ⟨_, _, some _, true⟩ _, hw => nomatch hw.2.2.2 rfl
  | .assign _ op value _, hw => by
    obtain ⟨-, hv⟩ := hw
    split at hv
    · next ho =>
      subst hv
      exact ⟨_, .step ho⟩
    · next ho =>
      obtain ⟨_, h⟩ := value.exists_written hv
      exact ⟨_, .assign (Bool.eq_false_iff.mpr ho) h⟩
  | .branch test body none _, hw =>
    let ⟨_, ht⟩ := test.exists_written hw.1
    let ⟨_, hb⟩ := Stmt.exists_bodyWritten body hw.2.1
    ⟨_, .choose ht hb⟩
  | .branch test thenBody (some elseBody) _, hw =>
    let ⟨_, ht⟩ := test.exists_written hw.1
    let ⟨_, hb⟩ := Stmt.exists_bodyWritten thenBody hw.2.1
    let ⟨_, he⟩ := Stmt.exists_bodyWritten elseBody hw.2.2
    ⟨_, .chooseElse ht hb he⟩
  | .ret values _, hw =>
    let ⟨_, h⟩ := ArgsWritten.of_list (Expr.exists_argsWritten values hw)
    ⟨_, .ret h⟩
  | .call _ _ args _, hw =>
    let ⟨_, h⟩ := ArgsWritten.of_list (Expr.exists_argsWritten args hw.2.2)
    ⟨_, .call h⟩

theorem Stmt.exists_bodyWritten : ∀ body : List Stmt, Stmt.BodyWritable body → ∃ ts, BodyWritten ts body
  | [], _ => ⟨[], .nil⟩
  | s :: body, hw =>
    let ⟨_, h⟩ := s.exists_written hw.1
    let ⟨_, hs⟩ := Stmt.exists_bodyWritten body hw.2
    ⟨_, .cons h hs⟩

end

theorem exists_paramsWritten (params : List Parameter) : ∃ ts, ParamsWritten ts params := by
  cases params with
  | nil => exact ⟨[], .none⟩
  | cons p params =>
    suffices ∃ ts, ParamListWritten ts (p :: params) from this.imp fun _ h => .some h
    induction params generalizing p with
    | nil => exact ⟨_, .one⟩
    | cons q params ih =>
      obtain ⟨_, h⟩ := ih q
      exact ⟨_, .more h⟩

theorem Item.exists_written (item : Item) (hw : item.Writable) : ∃ ts, ItemWritten ts item := by
  rcases item with m | ⟨type, name, init, isPublic⟩
  · obtain ⟨_, hp⟩ := exists_paramsWritten m.params
    obtain ⟨_, hb⟩ := Stmt.exists_bodyWritten m.body hw.2.2
    exact ⟨_, .method hp hb⟩
  · obtain ⟨-, rfl, rfl⟩ : _ ∧ init = none ∧ isPublic = false := hw
    exact ⟨_, .globalVar⟩

theorem exists_itemsWritten (items : List Item) (hw : ∀ item ∈ items, item.Writable) :
    ∃ ts, ItemsWritten ts items := by
  induction items with
  | nil => exact ⟨[], .nil⟩
  | cons item items ih =>
    obtain ⟨hitem, hrest⟩ := List.forall_mem_cons.mp hw
    obtain ⟨_, h⟩ := item.exists_written hitem
    obtain ⟨_, hs⟩ := ih hrest
    exact ⟨_, .cons h hs⟩

/-- A writable program has a text. -/
theorem Program.exists_renders {p : Program} (hp : p.Writable) : ∃ text, p.Renders text := by
  obtain ⟨ts, hts⟩ := exists_itemsWritten p.items hp.1
  refine ⟨String.ofList (spaced ts), ts, hts, ?_⟩
  rw [String.toList_ofList]
  exact (hts.legible hp.1).laid

end ScriptGraph
