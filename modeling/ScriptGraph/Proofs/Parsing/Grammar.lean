import ScriptGraph.Parsing.Program

/-!
# The grammar

Which tokens make up which tree, said without a reader. Brackets count by their kind here: a word of
the grammar is a list of tokens whose depths are erased by `Lexeme.flat`.

* `ExprDerived strata w e` — the word `w` is the expression `e`, read with the operators of `strata`;
  the expressions of a stratum recur on the left, and the operands of the last one are factors;
* `ArgsDerived`, `ArgListDerived` — arguments, with or without a comma behind the last one;
* `StmtDerived Values isOpen w s`, `BranchDerived`, `BodyDerived` — statements; a statement is *open* if
  it ends in an `if` without `else`, outside of braces. Only a branch that is not open may stand before
  an `else`, so every `else` belongs to the nearest `if` that has none. The words of `Values` are those
  between the parentheses of a `return`: `ArgsDerived` for the language, `ValuesDerived` for the stricter
  rule that no comma stands behind the last value;
* `ParamsDerived`, `ItemDerived`, `ItemsDerived` — programs.

Trees carry places, so a derivation also says where in the word they come from.
-/

namespace ScriptGraph

/-- A token without the depth of a bracket. -/
def Token.flat : Token → Token
  | .lbrace _ => .lbrace 0
  | .rbrace _ => .rbrace 0
  | .lparen _ => .lparen 0
  | .rparen _ => .rparen 0
  | t => t

/-- A token at its place, without the depth of a bracket. -/
def Lexeme.flat (l : Lexeme) : Lexeme :=
  ⟨l.token.flat, l.span⟩

/-- The place of the last of some tokens, `last` if there are none. -/
@[simp] def spanAfter (last : Span) : List Lexeme → Span
  | [] => last
  | l :: ls => spanAfter l.span ls

/-- The place from the first to the last of some tokens. -/
def cover : List Lexeme → Span
  | [] => ⟨0, 0⟩
  | l :: ls => l.span.merge (spanAfter l.span ls)

namespace AssignOp

/-- The tokens of an assignment operator. -/
def tokens : AssignOp → List Token
  | .set => [.assign]
  | .add => [.plus, .assign]
  | .sub => [.minus, .assign]
  | .mul => [.star, .assign]
  | .div => [.slash, .assign]
  | .mod => [.percent, .assign]
  | .increment => [.plus, .plus]
  | .decrement => [.minus, .minus]

/-- Is an operator written without an operand? -/
def isStep : AssignOp → Bool
  | .increment => true
  | .decrement => true
  | _ => false

end AssignOp

/-! ## Expressions -/

mutual

/-- `ExprDerived strata w e` says that the word `w` is the expression `e`, with no operator outside of
brackets but those of `strata`, the loosest first. -/
inductive ExprDerived : List Stratum → List Lexeme → Expr → Prop where
  /-- an operand alone -/
  | operand {stratum : Stratum} {strata : List Stratum} {w : List Lexeme} {e : Expr}
      (h : ExprDerived strata w e) : ExprDerived (stratum :: strata) w e
  /-- an operator, with the tighter operand on its right -/
  | binary {stratum : Stratum} {strata : List Stratum} {u v : List Lexeme} {left right : Expr}
      {mark : Lexeme} {op : BinaryOp} (hl : ExprDerived (stratum :: strata) u left)
      (ho : stratum mark.token = some op) (hr : ExprDerived strata v right) :
      ExprDerived (stratum :: strata) (u ++ mark :: v) (.binary op left right)
  /-- a number -/
  | number {text : String} {value : Binary32} {s : Span} (hv : Binary32.ofText? text = some value) :
      ExprDerived [] [⟨.number text, s⟩] (.number value)
  /-- a number that starts with its point -/
  | fraction {digits : String} {value : Binary32} {s t : Span}
      (hv : Binary32.ofText? ("0." ++ digits) = some value) :
      ExprDerived [] [⟨.dot, s⟩, ⟨.number digits, t⟩] (.number value)
  /-- an expression in parentheses -/
  | group {w : List Lexeme} {e : Expr} {o c : Span} (h : ExprDerived Stratum.all w e) :
      ExprDerived [] (⟨.lparen 0, o⟩ :: w ++ [⟨.rparen 0, c⟩]) e
  /-- a name -/
  | var {text : String} {s : Span} : ExprDerived [] [⟨.ident text, s⟩] (.var ⟨text, s⟩)
  /-- a change of sign -/
  | neg {w : List Lexeme} {e : Expr} {s : Span} (h : ExprDerived [] w e) :
      ExprDerived [] (⟨.minus, s⟩ :: w) (.neg e)
  /-- a logical negation -/
  | not {w : List Lexeme} {e : Expr} {s : Span} (h : ExprDerived [] w e) :
      ExprDerived [] (⟨.bang, s⟩ :: w) (.not e)
  /-- a constructor -/
  | construct {w : List Lexeme} {args : List Expr} {type : String} {s t o c : Span}
      (h : ArgsDerived w args) :
      ExprDerived []
        (⟨.keyNew, s⟩ :: ⟨.typeName type, t⟩ :: ⟨.lparen 0, o⟩ :: w ++ [⟨.rparen 0, c⟩])
        (.construct ⟨type, t⟩ args)
  /-- a call -/
  | call {w : List Lexeme} {args : List Expr} {receiver member : String} {r d m o c : Span}
      (h : ArgsDerived w args) :
      ExprDerived []
        (⟨.qualifier receiver, r⟩ :: ⟨.dot, d⟩ :: ⟨.ident member, m⟩ :: ⟨.lparen 0, o⟩ :: w ++
          [⟨.rparen 0, c⟩])
        (.call ⟨receiver, r⟩ ⟨member, m⟩ args)

/-- Expressions with commas between them, at least one. -/
inductive ArgListDerived : List Lexeme → List Expr → Prop where
  /-- one expression -/
  | one {w : List Lexeme} {e : Expr} (h : ExprDerived Stratum.all w e) : ArgListDerived w [e]
  /-- an expression before others -/
  | more {u v : List Lexeme} {e : Expr} {es : List Expr} {k : Span}
      (h : ExprDerived Stratum.all u e) (hs : ArgListDerived v es) :
      ArgListDerived (u ++ ⟨.comma, k⟩ :: v) (e :: es)

/-- Arguments: none, or expressions with commas between them and perhaps one more behind them. -/
inductive ArgsDerived : List Lexeme → List Expr → Prop where
  /-- no argument -/
  | none : ArgsDerived [] []
  /-- arguments -/
  | some {w : List Lexeme} {es : List Expr} (h : ArgListDerived w es) : ArgsDerived w es
  /-- arguments with a comma behind them -/
  | trailing {w : List Lexeme} {es : List Expr} {k : Span} (h : ArgListDerived w es) :
      ArgsDerived (w ++ [⟨.comma, k⟩]) es

end

/-- Values with commas between them and none behind the last one. -/
inductive ValuesDerived : List Lexeme → List Expr → Prop where
  /-- no value -/
  | none : ValuesDerived [] []
  /-- values -/
  | some {w : List Lexeme} {es : List Expr} (h : ArgListDerived w es) : ValuesDerived w es

/-! ## Statements -/

variable (Values : List Lexeme → List Expr → Prop)

mutual

/-- `StmtDerived Values isOpen w s` says that the word `w` is the statement `s`, and whether it ends in
an `if` without `else`. What a `return` has between its parentheses is a word of `Values`. -/
inductive StmtDerived : Bool → List Lexeme → Stmt → Prop where
  /-- a declaration -/
  | declare {w : List Lexeme} {type name : String} {s t e : Span}
      (hw : w = [⟨.typeName type, s⟩, ⟨.ident name, t⟩, ⟨.semicolon, e⟩]) :
      StmtDerived false w (.declare ⟨type, ⟨name, t⟩, none, false⟩ (cover w))
  /-- a declaration with an initial value -/
  | declareAs {w v : List Lexeme} {type name : String} {init : Expr} {s t a e : Span}
      (hv : ExprDerived Stratum.all v init)
      (hw : w = ⟨.typeName type, s⟩ :: ⟨.ident name, t⟩ :: ⟨.assign, a⟩ :: v ++ [⟨.semicolon, e⟩]) :
      StmtDerived false w (.declare ⟨type, ⟨name, t⟩, some init, false⟩ (cover w))
  /-- a public declaration -/
  | publish {w : List Lexeme} {type name : String} {s p t e : Span}
      (hw : w = [⟨.keyPublic, s⟩, ⟨.typeName type, p⟩, ⟨.ident name, t⟩, ⟨.semicolon, e⟩]) :
      StmtDerived false w (.declare ⟨type, ⟨name, t⟩, none, true⟩ (cover w))
  /-- an increment or a decrement -/
  | step {w marks : List Lexeme} {name : String} {op : AssignOp} {s e : Span}
      (hs : op.isStep = true) (hm : marks.map Lexeme.token = op.tokens)
      (hw : w = ⟨.ident name, s⟩ :: marks ++ [⟨.semicolon, e⟩]) :
      StmtDerived false w (.assign ⟨name, s⟩ op (.number 1) (cover w))
  /-- an assignment with an operand -/
  | assign {w marks v : List Lexeme} {name : String} {op : AssignOp} {value : Expr} {s e : Span}
      (hs : op.isStep = false) (hm : marks.map Lexeme.token = op.tokens)
      (hv : ExprDerived Stratum.all v value)
      (hw : w = ⟨.ident name, s⟩ :: marks ++ v ++ [⟨.semicolon, e⟩]) :
      StmtDerived false w (.assign ⟨name, s⟩ op value (cover w))
  /-- a call -/
  | call {w a : List Lexeme} {args : List Expr} {receiver member : String} {r d m o c e : Span}
      (ha : ArgsDerived a args)
      (hw : w = ⟨.qualifier receiver, r⟩ :: ⟨.dot, d⟩ :: ⟨.ident member, m⟩ :: ⟨.lparen 0, o⟩ :: a ++
        [⟨.rparen 0, c⟩, ⟨.semicolon, e⟩]) :
      StmtDerived false w (.call ⟨receiver, r⟩ ⟨member, m⟩ args (cover w))
  /-- a return -/
  | ret {w a : List Lexeme} {values : List Expr} {s o c e : Span} (ha : Values a values)
      (hw : w = ⟨.keyReturn, s⟩ :: ⟨.lparen 0, o⟩ :: a ++ [⟨.rparen 0, c⟩, ⟨.semicolon, e⟩]) :
      StmtDerived false w (.ret values (cover w))
  /-- a choice with one branch -/
  | choose {w t b : List Lexeme} {test : Expr} {body : List Stmt} {isOpen : Bool} {s o c : Span}
      (ht : ExprDerived Stratum.all t test) (hb : BranchDerived isOpen b body)
      (hw : w = ⟨.keyIf, s⟩ :: ⟨.lparen 0, o⟩ :: t ++ ⟨.rparen 0, c⟩ :: b) :
      StmtDerived true w (.branch test body none (cover w))
  /-- a choice with two branches, the first of which cannot take the `else` -/
  | chooseElse {w t b b' : List Lexeme} {test : Expr} {thenBody elseBody : List Stmt} {isOpen : Bool}
      {s o c k : Span} (ht : ExprDerived Stratum.all t test) (hb : BranchDerived false b thenBody)
      (he : BranchDerived isOpen b' elseBody)
      (hw : w = ⟨.keyIf, s⟩ :: ⟨.lparen 0, o⟩ :: t ++ ⟨.rparen 0, c⟩ :: b ++ ⟨.keyElse, k⟩ :: b') :
      StmtDerived isOpen w (.branch test thenBody (some elseBody) (cover w))

/-- A branch: a block, or one statement. -/
inductive BranchDerived : Bool → List Lexeme → List Stmt → Prop where
  /-- statements in braces -/
  | block {w : List Lexeme} {body : List Stmt} {o c : Span} (h : BodyDerived w body) :
      BranchDerived false (⟨.lbrace 0, o⟩ :: w ++ [⟨.rbrace 0, c⟩]) body
  /-- one statement -/
  | single {isOpen : Bool} {w : List Lexeme} {s : Stmt} (h : StmtDerived isOpen w s) :
      BranchDerived isOpen w [s]

/-- Statements one behind the other. -/
inductive BodyDerived : List Lexeme → List Stmt → Prop where
  /-- no statement -/
  | nil : BodyDerived [] []
  /-- a statement before others -/
  | cons {isOpen : Bool} {u v : List Lexeme} {s : Stmt} {body : List Stmt}
      (h : StmtDerived isOpen u s) (hs : BodyDerived v body) : BodyDerived (u ++ v) (s :: body)

end

/-! ## Programs -/

/-- Parameters with commas between them, at least one. -/
inductive ParamListDerived : List Lexeme → List Parameter → Prop where
  /-- one parameter -/
  | one {type name : String} {s t : Span} :
      ParamListDerived [⟨.typeName type, s⟩, ⟨.ident name, t⟩] [⟨type, ⟨name, t⟩⟩]
  /-- a parameter before others -/
  | more {type name : String} {s t k : Span} {w : List Lexeme} {params : List Parameter}
      (h : ParamListDerived w params) :
      ParamListDerived (⟨.typeName type, s⟩ :: ⟨.ident name, t⟩ :: ⟨.comma, k⟩ :: w)
        (⟨type, ⟨name, t⟩⟩ :: params)

/-- Parameters, with commas between them. -/
inductive ParamsDerived : List Lexeme → List Parameter → Prop where
  /-- no parameter -/
  | none : ParamsDerived [] []
  /-- parameters -/
  | some {w : List Lexeme} {params : List Parameter} (h : ParamListDerived w params) :
      ParamsDerived w params

/-- A declaration at the top level. -/
inductive ItemDerived : List Lexeme → Item → Prop where
  /-- a method -/
  | method {p b : List Lexeme} {params : List Parameter} {body : List Stmt} {name : String}
      {s t o c o' c' : Span} (hp : ParamsDerived p params) (hb : BodyDerived Values b body) :
      ItemDerived
        (⟨.keyDef, s⟩ :: ⟨.ident name, t⟩ :: ⟨.lparen 0, o⟩ :: p ++
          ⟨.rparen 0, c⟩ :: ⟨.lbrace 0, o'⟩ :: b ++ [⟨.rbrace 0, c'⟩])
        (.method ⟨⟨name, t⟩, params, body⟩)
  /-- a global variable -/
  | globalVar {type name : String} {s t e : Span} :
      ItemDerived [⟨.typeName type, s⟩, ⟨.ident name, t⟩, ⟨.semicolon, e⟩]
        (.globalVar ⟨type, ⟨name, t⟩, none, false⟩)

/-- Declarations one behind the other, which make up a program. -/
inductive ItemsDerived : List Lexeme → List Item → Prop where
  /-- no declaration -/
  | nil : ItemsDerived [] []
  /-- a declaration before others -/
  | cons {u v : List Lexeme} {item : Item} {items : List Item} (h : ItemDerived Values u item)
      (hs : ItemsDerived v items) : ItemsDerived (u ++ v) (item :: items)

/-! ## First and last tokens -/

/-- May a token stand first in an expression? -/
def Token.startsExpr : Token → Bool
  | .number _ | .dot | .lparen _ | .ident _ | .minus | .bang | .keyNew | .qualifier _ => true
  | _ => false

/-- An expression has a first token, which can start one. -/
theorem ExprDerived.starts {strata : List Stratum} {w : List Lexeme} {e : Expr} :
    ExprDerived strata w e → ∃ l v, w = l :: v ∧ l.token.startsExpr = true
  | .operand h => h.starts
  | .binary hl _ _ => by
    obtain ⟨l, v, rfl, hs⟩ := hl.starts
    exact ⟨l, _, rfl, hs⟩
  | .number _ => ⟨_, _, rfl, rfl⟩
  | .fraction _ => ⟨_, _, rfl, rfl⟩
  | .group _ => ⟨_, _, rfl, rfl⟩
  | .var => ⟨_, _, rfl, rfl⟩
  | .neg _ => ⟨_, _, rfl, rfl⟩
  | .not _ => ⟨_, _, rfl, rfl⟩
  | .construct _ => ⟨_, _, rfl, rfl⟩
  | .call _ => ⟨_, _, rfl, rfl⟩

/-- So has a list of arguments. -/
theorem ArgListDerived.starts {w : List Lexeme} {es : List Expr} :
    ArgListDerived w es → ∃ l v, w = l :: v ∧ l.token.startsExpr = true
  | .one h => h.starts
  | .more h _ => by
    obtain ⟨l, v, rfl, hs⟩ := h.starts
    exact ⟨l, _, rfl, hs⟩

/-- May a token stand last in an expression? -/
def Token.endsExpr : Token → Bool
  | .number _ | .ident _ | .rparen _ => true
  | _ => false

/-- An expression has a last token, which can end one. -/
theorem ExprDerived.ends {strata : List Stratum} {w : List Lexeme} {e : Expr} :
    ExprDerived strata w e → ∃ v l, w = v ++ [l] ∧ l.token.endsExpr = true
  | .operand h => h.ends
  | .binary _ _ hr => by
    rename_i u _ _ _ mark _ _ _
    obtain ⟨v, l, rfl, he⟩ := hr.ends
    exact ⟨u ++ mark :: v, l, by simp, he⟩
  | .number _ => ⟨[], _, rfl, rfl⟩
  | .fraction _ => ⟨[_], _, rfl, rfl⟩
  | .group _ => ⟨_, _, rfl, rfl⟩
  | .var => ⟨[], _, rfl, rfl⟩
  | .neg h => by
    obtain ⟨v, l, rfl, he⟩ := h.ends
    exact ⟨_ :: v, l, rfl, he⟩
  | .not h => by
    obtain ⟨v, l, rfl, he⟩ := h.ends
    exact ⟨_ :: v, l, rfl, he⟩
  | .construct _ => ⟨_, _, rfl, rfl⟩
  | .call _ => ⟨_, _, rfl, rfl⟩

/-- So has a list of arguments. -/
theorem ArgListDerived.ends {w : List Lexeme} {es : List Expr} :
    ArgListDerived w es → ∃ v l, w = v ++ [l] ∧ l.token.endsExpr = true
  | .one h => h.ends
  | .more (u := u) (k := k) _ hs => by
    obtain ⟨v, l, rfl, he⟩ := hs.ends
    exact ⟨u ++ ⟨.comma, k⟩ :: v, l, by simp, he⟩

/-- A statement has a token. -/
theorem StmtDerived.ne_nil {isOpen : Bool} {w : List Lexeme} {s : Stmt}
    (h : StmtDerived Values isOpen w s) : w ≠ [] := by
  cases h <;> (rename_i hw; simp [hw])

end ScriptGraph
