import ScriptGraph.Proofs.Compilation
import ScriptGraph.Proofs.Parsing.Places

/-!
# Where the errors of lowering come from

Lowering refuses a program because of one of its parts, and the error carries the place of that
part. In a program that was read from a text the part can be found there; and some errors cannot
arise, because the grammar leaves no tree with such a part.

* `ExprFault`, `Fault`, `ProgramFault` — every error that lowering can have, with the part of the
  tree that it comes from;
* `Raises x E` — all errors of a step of building are in `E`. It holds of a sequence if it holds of
  the parts, so there is one lemma for each constructor of the tree;
* `Program.fault_of_lower` — every error has such an origin, whatever the tree;
* `Located source m e` — what an error tells about a text, `located_of_parse` — it does.
-/

namespace ScriptGraph

/-- The errors that come from expressions. -/
inductive ExprFault (exprs : List Expr) : LoweringError → Prop where
  /-- a name that stands for nothing -/
  | var {name : Name} (h : .var name ∈ exprs) :
      ExprFault exprs (.unknownIdentifier name.span name.text)
  /-- a call of no function -/
  | member {receiver member : Name} {args : List Expr} (h : .call receiver member args ∈ exprs) :
      ExprFault exprs (.unknownMember receiver.span receiver.text member.text)
  /-- a call of no component -/
  | component {receiver member : Name} {args : List Expr} (h : .call receiver member args ∈ exprs) :
      ExprFault exprs (.invalidComponent member.span receiver.text member.text)
  /-- a constructor of a type that has none -/
  | construct {type : Name} {args : List Expr} (h : .construct type args ∈ exprs)
      (hc : constructor? type.text = none) : ExprFault exprs (.unknownType type.span type.text)
  /-- an operator, which has no place -/
  | operator {symbol : String} {operand : ValueType} :
      ExprFault exprs (.unknownOperator symbol operand)

/-- The errors that come from the statements of some bodies. -/
inductive Fault (bodies : List (List Stmt)) : LoweringError → Prop where
  /-- an expression -/
  | expr {s : Stmt} {e : LoweringError} (hs : s ∈ bodies.flatten)
      (he : ExprFault (Expr.argsParts s.exprs) e) : Fault bodies e
  /-- an assignment to nothing -/
  | target {target : Name} {op : AssignOp} {value : Expr} {span : Span}
      (hs : .assign target op value span ∈ bodies.flatten) :
      Fault bodies (.unknownIdentifier target.span target.text)
  /-- a declaration without an initial value -/
  | uninitialized {d : Declaration} {span : Span} (hs : .declare d span ∈ bodies.flatten) :
      Fault bodies (.uninitializedLocal d.name.span d.name.text)
  /-- a public declaration with an initial value -/
  | initialized {d : Declaration} {span : Span} (hs : .declare d span ∈ bodies.flatten)
      (hp : d.isPublic = true) (hi : d.init ≠ none) :
      Fault bodies (.publicInitializer d.name.span d.name.text)
  /-- a public declaration of no type -/
  | untyped {d : Declaration} {span : Span} (hs : .declare d span ∈ bodies.flatten)
      (ht : ValueType.ofName? d.type = none) : Fault bodies (.unknownType d.name.span d.type)
  /-- a statement behind a return -/
  | unreachable {body before after : List Stmt} {values : List Expr} {span : Span} {s : Stmt}
      (hb : body ∈ bodies) (he : body = before ++ .ret values span :: s :: after) :
      Fault bodies (.unreachableStatement s.span)

/-- The errors that come from a program. -/
inductive ProgramFault (p : Program) : LoweringError → Prop where
  /-- a global variable of no type -/
  | global {d : Declaration} (hd : d ∈ p.globals) (ht : ValueType.ofName? d.type = none) :
      ProgramFault p (.unknownType d.name.span d.type)
  /-- a parameter of no type -/
  | parameter {m : Method} {q : Parameter} (hm : p.entry? = some m) (hq : q ∈ m.params)
      (ht : ValueType.ofName? q.type = none) : ProgramFault p (.unknownType q.name.span q.type)
  /-- a part of the body -/
  | body {m : Method} {e : LoweringError} (hm : p.entry? = some m) (he : Fault m.bodies e) :
      ProgramFault p e

/-- A type that a program can name has a value to start with. -/
theorem ValueType.defaultText?_of_ofName? {name : String} {type : ValueType}
    (h : ValueType.ofName? name = some type) : ∃ default, type.defaultText? = some default := by
  rw [ValueType.ofName?] at h
  repeat' split at h
  all_goals cases h
  all_goals exact ⟨_, rfl⟩

namespace Lowering

variable {α β : Type} {E : LoweringError → Prop}

/-- Whatever errors a step of building has, they are in `E`. -/
def Raises (x : Lowering α) (E : LoweringError → Prop) : Prop :=
  ∀ b e b', x b = .error e b' → E e

/-- A step of building that has no error. -/
def Silent (x : Lowering α) : Prop :=
  ∀ b, ∃ a b', x b = .ok a b'

/-! ## Steps without errors -/

theorem silent_freshRef : Silent freshRef :=
  fun _ => ⟨_, _, rfl⟩

theorem silent_binding? (name : String) : Silent (binding? name) :=
  fun _ => ⟨_, _, rfl⟩

theorem silent_connect (wire : Wire) (target : Ref) (pin : Nat) :
    Silent (connect wire target pin) :=
  fun _ => ⟨_, _, rfl⟩

theorem silent_unary (opcode : Opcode) (inner : Wire) : Silent (unary opcode inner) :=
  fun _ => ⟨_, _, rfl⟩

theorem silent_currentValue (binding : Binding) : Silent (currentValue binding) := by
  intro b
  cases binding <;> exact ⟨_, _, rfl⟩

theorem silent_conjunction (outer : Option Wire) (inner : Wire) :
    Silent (conjunction outer inner) := by
  intro b
  cases outer <;> exact ⟨_, _, rfl⟩

theorem silent_gated (condition : Option Wire) (binding : Binding) (new : Wire)
    (previous : Option Wire) : Silent (gated condition binding new previous) := by
  intro b
  cases condition with
  | none => exact ⟨_, _, rfl⟩
  | some condition =>
    cases previous with
    | some previous => exact ⟨_, _, rfl⟩
    | none => cases binding <;> exact ⟨_, _, rfl⟩

theorem silent_store (name : String) (binding : Binding) (value : Wire) (last : Ref) :
    Silent (store name binding value last) := by
  intro b
  cases binding <;> exact ⟨_, _, rfl⟩

namespace Raises

/-! ## Composition -/

theorem pure (a : α) : Raises (pure a) E :=
  nofun

theorem throw {e : LoweringError} (h : E e) : Raises (throw e : Lowering α) E := by
  rintro b _ b' ⟨⟩
  exact h

theorem bind {x : Lowering α} {k : α → Lowering β} (h : Raises x E) (hk : ∀ a, Raises (k a) E) :
    Raises (x >>= k) E := by
  intro b e b' hb
  simp only [Bind.bind, EStateM.bind] at hb
  rcases hx : x b with ⟨a, b₁⟩ | ⟨e₁, b₁⟩ <;> rw [hx] at hb
  · exact hk a b₁ e b' hb
  · cases hb
    exact h b e b' hx

theorem of_silent {x : Lowering α} (h : Silent x) : Raises x E := by
  intro b e b' hb
  obtain ⟨a, b₁, hx⟩ := h b
  cases hx.symm.trans hb

theorem mono {x : Lowering α} {F : LoweringError → Prop} (h : Raises x E) (hE : ∀ e, E e → F e) :
    Raises x F :=
  fun b e b' hb => hE e (h b e b' hb)

/-- A step without errors before others. -/
theorem after {x : Lowering α} {k : α → Lowering β} (h : Silent x) (hk : ∀ a, Raises (k a) E) :
    Raises (x >>= k) E :=
  (of_silent h).bind hk

/-- A declared type is refused if there is none of its name. -/
theorem declaredType {type : String} {name : Name}
    (h : ValueType.ofName? type = none → E (.unknownType name.span type)) :
    Raises (declaredType type name) E := by
  rw [Lowering.declaredType]
  rcases ht : ValueType.ofName? type with _ | found
  · exact throw (h ht)
  · exact pure found

/-! ## Expressions -/

section

variable {exprs : List Expr} (t : Builtins)

theorem component {receiver member : Name} {args : List Expr}
    (h : .call receiver member args ∈ exprs) (binding : Binding) :
    Raises (component receiver member binding) (ExprFault exprs) := by
  rw [Lowering.component]
  rcases componentPin? member.text with _ | pin
  · exact throw (.component h)
  · exact after (silent_currentValue binding) fun _ => of_silent fun _ => ⟨_, _, rfl⟩

theorem namedValue {name : Name} (h : .var name ∈ exprs) :
    Raises (namedValue t name) (ExprFault exprs) := by
  refine after (silent_binding? name.text) fun found => ?_
  cases found with
  | some binding => exact of_silent (silent_currentValue binding)
  | none =>
    rcases t.constant? name.text with _ | opcode
    · exact throw (.var h)
    · exact of_silent fun _ => ⟨_, _, rfl⟩

theorem binary (op : BinaryOp) (left right : Wire) :
    Raises (binary t op left right) (ExprFault exprs) := by
  rw [Lowering.binary]
  rcases t.operator? op.symbol (isVectorOp left.type right.type) with _ | opcode
  · exact throw .operator
  · exact of_silent fun _ => ⟨_, _, rfl⟩

mutual

theorem expr : ∀ e : Expr, e.parts ⊆ exprs → Raises (expr t e) (ExprFault exprs)
  | .number _, _ => of_silent fun _ => ⟨_, _, rfl⟩
  | .var name, h => namedValue t (h (Expr.mem_parts_self _))
  | .neg inner, h =>
    (expr inner fun x hx => h (List.mem_cons_of_mem _ hx)).bind fun _ =>
      of_silent (silent_unary _ _)
  | .not inner, h =>
    (expr inner fun x hx => h (List.mem_cons_of_mem _ hx)).bind fun _ =>
      of_silent (silent_unary _ _)
  | .binary op left right, h =>
    (expr left fun x hx => h (by simp [Expr.parts, hx])).bind fun _ =>
      (expr right fun x hx => h (by simp [Expr.parts, hx])).bind fun _ => binary t op _ _
  | .call receiver member args, h => by
    have hmem : .call receiver member args ∈ exprs := h (Expr.mem_parts_self _)
    refine after (silent_binding? receiver.text) fun found => ?_
    cases found with
    | some binding => exact component hmem binding
    | none =>
      rcases t.member? receiver.text member.text with _ | opcode
      · exact throw (.member hmem)
      · refine after silent_freshRef fun ref => ?_
        exact (arguments ref 0 args fun x hx => h (List.mem_cons_of_mem _ hx)).bind fun _ =>
          of_silent fun _ => ⟨_, _, rfl⟩
  | .construct type args, h => by
    rw [Lowering.expr]
    rcases hc : constructor? type.text with _ | ⟨opcode, valueType⟩
    · exact throw (.construct (h (Expr.mem_parts_self (.construct type args))) hc)
    · refine after silent_freshRef fun ref => ?_
      exact (arguments ref 0 args fun x hx => h (List.mem_cons_of_mem _ hx)).bind fun _ =>
        of_silent fun _ => ⟨_, _, rfl⟩

theorem arguments (target : Ref) (pin : Nat) : ∀ args : List Expr, Expr.argsParts args ⊆ exprs →
    Raises (arguments t target pin args) (ExprFault exprs)
  | [], _ => pure false
  | arg :: args, h =>
    (expr arg fun _ hx => h (List.mem_append_left _ hx)).bind fun w =>
      after (silent_connect w target pin) fun _ =>
        (arguments target (pin + 1) args fun _ hx => h (List.mem_append_right _ hx)).bind
          fun _ => pure _

end

end

/-! ## Statements -/

section

variable {bodies : List (List Stmt)} (t : Builtins)

/-- What expressions raise is raised by the statement that they are part of. -/
theorem ofStmt {x : Lowering α} {s : Stmt} (hs : s ∈ bodies.flatten)
    (h : Raises x (ExprFault (Expr.argsParts s.exprs))) : Raises x (Fault bodies) :=
  h.mono fun _ he => .expr hs he

/-- An expression of a statement is raised by the statement. -/
theorem exprOf {s : Stmt} {e : Expr} (hs : s ∈ bodies.flatten) (he : e ∈ s.exprs) :
    Raises (Lowering.expr t e) (Fault bodies) :=
  ofStmt hs (expr t e fun _ hx => Expr.mem_argsParts.mpr ⟨e, he, hx⟩)

theorem declare {d : Declaration} {span : Span} (hs : .declare d span ∈ bodies.flatten) :
    Raises (declare t d) (Fault bodies) := by
  rw [Lowering.declare]
  rcases hp : d.isPublic with _ | _ <;> rcases hi : d.init with _ | init
  · exact throw (.uninitialized hs)
  · exact (exprOf t hs (by simp [Stmt.exprs, hi])).bind fun _ => of_silent fun _ => ⟨_, _, rfl⟩
  · exact (declaredType fun ht => .untyped hs ht).bind fun _ => of_silent fun _ => ⟨_, _, rfl⟩
  · exact throw (.initialized hs hp (by simp [hi]))

theorem assign {target : Name} {op : AssignOp} {value : Expr} {span : Span}
    (hs : .assign target op value span ∈ bodies.flatten) (condition : Option Wire) (last : Ref) :
    Raises (assign t target op value condition last) (Fault bodies) := by
  have hvalue : Raises (Lowering.expr t value) (Fault bodies) := exprOf t hs (by simp [Stmt.exprs])
  refine after (silent_binding? target.text) fun found => ?_
  cases found with
  | none => exact throw (.target hs)
  | some binding =>
    have hassigned : Raises (assignedValue t binding op value) (Fault bodies) := by
      rw [Lowering.assignedValue]
      rcases op.binaryOp? with _ | op
      · exact hvalue.bind fun _ => pure _
      · refine after (silent_currentValue binding) fun current => hvalue.bind fun operand => ?_
        exact (ofStmt hs (binary t op current operand)).bind fun _ => pure _
    refine hassigned.bind fun result => ?_
    obtain ⟨new, previous⟩ := result
    exact after (silent_gated condition binding new previous) fun kept =>
      of_silent (silent_store target.text binding kept last)

theorem outputs {s : Stmt} (hs : s ∈ bodies.flatten) (index : Nat) {values : List Expr}
    (hv : values ⊆ s.exprs) : Raises (outputs t index values) (Fault bodies) := by
  induction values generalizing index with
  | nil => exact pure ()
  | cons value values ih =>
    obtain ⟨hvalue, hvalues⟩ := List.cons_subset.mp hv
    refine (exprOf t hs hvalue).bind fun w => after (fun _ => ⟨_, _, rfl⟩) fun _ => ?_
    exact after (silent_connect w Ref.endpoint index) fun _ => ih (index + 1) hvalues

mutual

theorem stmt (condition : Option Wire) (last : Ref) : ∀ s : Stmt, s ∈ bodies.flatten →
    s.bodies ⊆ bodies → Raises (stmt t condition last s) (Fault bodies)
  | .declare d span, hs, _ => (declare t hs).bind fun _ => pure _
  | .assign target op value span, hs, _ => assign t hs condition last
  | .branch test thenBody none span, hs, hb => by
    obtain ⟨hthen, hin⟩ := List.cons_subset.mp hb
    refine (exprOf t hs (by simp [Stmt.exprs])).bind fun wire => ?_
    refine after (silent_conjunction condition wire) fun whenTrue => ?_
    exact (body (some whenTrue) last thenBody [] hthen hin).bind fun _ => pure _
  | .branch test thenBody (some elseBody) span, hs, hb => by
    obtain ⟨hfirst, hsecond⟩ := List.append_subset.mp hb
    obtain ⟨hthen, hthenIn⟩ := List.cons_subset.mp hfirst
    obtain ⟨helse, helseIn⟩ := List.cons_subset.mp hsecond
    refine (exprOf t hs (by simp [Stmt.exprs])).bind fun wire => ?_
    refine after (silent_conjunction condition wire) fun whenTrue => ?_
    refine (body (some whenTrue) last thenBody [] hthen hthenIn).bind fun last => ?_
    refine after (silent_unary Opcode.not wire) fun negated => ?_
    refine after (silent_conjunction condition negated) fun whenFalse => ?_
    exact body (some whenFalse) last elseBody [] helse helseIn
  | .ret values span, hs, _ =>
    (outputs t hs 0 (List.Subset.refl _)).bind fun _ => of_silent fun _ => ⟨_, _, rfl⟩
  | .call receiver member args span, hs, _ => by
    have hcall := exprOf t hs (e := .call receiver member args) (by simp [Stmt.exprs])
    exact (hcall.bind fun _ => pure PUnit.unit).bind fun _ => pure _

/-- The rest of a body: what stands before it is known, so that a return can be found. -/
theorem body (condition : Option Wire) (last : Ref) : ∀ (rest before : List Stmt),
    before ++ rest ∈ bodies → Stmt.bodiesIn rest ⊆ bodies →
      Raises (body t condition last rest) (Fault bodies)
  | [], _, _, _ => pure last
  | s :: rest, before, hb, hin => by
    obtain ⟨hs, hrest⟩ := List.append_subset.mp hin
    have hmem : s ∈ bodies.flatten := List.mem_flatten.mpr ⟨_, hb, by simp⟩
    refine (stmt condition last s hmem hs).bind fun last => ?_
    have htail := body condition last rest (before ++ [s]) (by simpa using hb) hrest
    cases s with
    | ret values span =>
      cases rest with
      | nil => exact htail
      | cons next rest => exact throw (.unreachable hb rfl)
    | _ => exact htail

end

end

/-! ## Programs -/

section

variable {p : Program} (t : Builtins)

theorem declareGlobal {d : Declaration} (hd : d ∈ p.globals) :
    Raises (declareGlobal d) (ProgramFault p) := by
  rw [Lowering.declareGlobal, Lowering.declaredType]
  rcases ht : ValueType.ofName? d.type with _ | type
  · rintro b _ b' ⟨⟩
    exact .global hd ht
  · obtain ⟨default, hdefault⟩ := ValueType.defaultText?_of_ofName? ht
    simp only [pure_bind, hdefault]
    exact of_silent fun _ => ⟨_, _, rfl⟩

theorem declareGlobals {ds : List Declaration} (hds : ds ⊆ p.globals) :
    Raises (declareGlobals ds) (ProgramFault p) := by
  induction ds with
  | nil => exact pure ()
  | cons d ds ih =>
    obtain ⟨hd, hds⟩ := List.cons_subset.mp hds
    exact (declareGlobal hd).bind fun _ => ih hds

theorem parameters {m : Method} (hm : p.entry? = some m) (pin : Nat) {ps : List Parameter}
    (hps : ps ⊆ m.params) : Raises (parameters pin ps) (ProgramFault p) := by
  induction ps generalizing pin with
  | nil => exact pure ()
  | cons q ps ih =>
    obtain ⟨hq, hps⟩ := List.cons_subset.mp hps
    have htype : Raises (Lowering.declaredType q.type q.name) (ProgramFault p) :=
      declaredType fun ht => .parameter hm hq ht
    refine htype.bind fun type => after (fun _ => ⟨_, _, rfl⟩) fun _ => ?_
    exact after (fun _ => ⟨_, _, rfl⟩) fun _ => ih (pin + 1) hps

theorem program (p : Program) : Raises (program t p) (ProgramFault p) := by
  refine (declareGlobals (List.Subset.refl _)).bind fun _ => ?_
  rcases hm : p.entry? with _ | m
  · exact of_silent fun _ => ⟨_, _, rfl⟩
  · refine bind ?_ fun _ => of_silent fun _ => ⟨_, _, rfl⟩
    refine (parameters hm 0 (List.Subset.refl _)).bind fun _ => ?_
    have hbody : Raises (Lowering.body t none Ref.endpoint m.body) (Fault m.bodies) :=
      body t none Ref.endpoint m.body [] List.mem_cons_self fun _ hb => List.mem_cons_of_mem _ hb
    exact (hbody.mono fun _ he => .body hm he).bind fun _ => of_silent fun _ => ⟨_, _, rfl⟩

end

end Raises

end Lowering

/-- Every error of lowering comes from a part of the program. -/
theorem Program.fault_of_lower {p : Program} {t : Builtins} {first : Ref} {e : LoweringError}
    (h : p.lower t first = .error e) : ProgramFault p e := by
  rw [Program.lower] at h
  split at h
  · cases h
  · next hr =>
    cases h
    exact Lowering.Raises.program t p _ _ _ hr

/-! ## Programs that were read from a text -/

/-- The name of a value type is one of five. -/
theorem mem_of_isTypeText {text : String} (h : isTypeText text = true) :
    text ∈ ["int", "bool", "float", "Vector2", "Vector3"] := by
  rw [isTypeText, Token.isSpelled, Bool.and_eq_true_iff] at h
  have hword : Token.ofWord text = .typeName text := eq_of_beq h.2
  by_contra hne
  rw [Token.ofWord, if_neg hne] at hword
  repeat' split at hword
  all_goals cases hword

/-- A type that can be written exists. -/
theorem ofName?_of_isTypeText {text : String} (h : isTypeText text = true) :
    ValueType.ofName? text ≠ none := by
  have hmem := mem_of_isTypeText h
  simp only [List.mem_cons, List.not_mem_nil, or_false] at hmem
  rcases hmem with rfl | rfl | rfl | rfl | rfl <;> decide

/-- A type that can be written and has no constructor is one of three. -/
theorem mem_of_constructor? {text : String} (h : isTypeText text = true)
    (hc : constructor? text = none) : text ∈ ["bool", "int", "float"] := by
  have hmem := mem_of_isTypeText h
  simp only [List.mem_cons, List.not_mem_nil, or_false] at hmem
  rcases hmem with rfl | rfl | rfl | rfl | rfl
  · decide
  · decide
  · decide
  · cases hc
  · cases hc

/-- What an error of lowering tells about the text of a program with the entry method `m`. -/
def LoweringError.Located (source : String) (m : Method) : LoweringError → Prop
  | .unknownIdentifier span name => Name.Stands source ⟨name, span⟩
  | .unknownMember span receiver _ => Name.Stands source ⟨receiver, span⟩
  | .unknownOperator _ _ => True
  | .invalidComponent span _ member => Name.Stands source ⟨member, span⟩
  | .unknownType span name =>
    Name.Stands source ⟨name, span⟩ ∧ name ∈ ["bool", "int", "float"] ∧
      ∃ args, .construct ⟨name, span⟩ args ∈ m.exprs
  | .uninitializedLocal span name => Name.Stands source ⟨name, span⟩
  | .unreachableStatement span =>
    span.Cuts source ∧ ∃ before values place s after,
      before ++ .ret values place :: s :: after ∈ m.bodies ∧ s.span = span
  | .publicInitializer _ _ => False

section

variable {source : String} {w : List Lexeme} {m : Method}

/-- An error of an expression that is derived from tokens of the text. -/
theorem ExprFault.located {exprs : List Expr} {e : LoweringError} (h : ExprFault exprs e)
    (hw : ∀ l ∈ w, l.Stands source) (hd : ∀ x ∈ exprs, x.DerivedIn w) (hm : exprs ⊆ m.exprs) :
    e.Located source m := by
  have hnames : ∀ x ∈ exprs, ∀ n ∈ x.names, n.Stands source :=
    fun x hx n hn => ((hd x hx).names_from n hn).stands hw
  cases h with
  | var h => exact hnames _ h _ (by simp [Expr.names])
  | member h => exact hnames _ h _ (by simp [Expr.names])
  | component h => exact hnames _ h _ (by simp [Expr.names])
  | @construct type args h hc =>
    refine ⟨hnames _ h type (by simp [Expr.names]), ?_, args, hm h⟩
    cases hd _ h with
    | derived hx hv =>
      have hwritable := hx.writable fun l hl => (hw l (hv hl)).spelled
      exact mem_of_constructor? hwritable.1 hc
  | operator => trivial

/-- An error of a statement that is derived from tokens of the text. -/
theorem Fault.located {e : LoweringError} (h : Fault m.bodies e) (hw : ∀ l ∈ w, l.Stands source)
    (hd : ∀ s ∈ m.stmts, s.DerivedIn w) : e.Located source m := by
  have htarget : ∀ s ∈ m.stmts, ∀ n ∈ s.target?, n.Stands source := by
    intro s hs n hn
    obtain ⟨isOpen, v, hd, hv⟩ := hd s hs
    exact ((hd.target_from n hn).mono hv).stands hw
  have hwritable : ∀ s ∈ m.stmts, s.Writable := by
    intro s hs
    obtain ⟨isOpen, v, hd, hv⟩ := hd s hs
    exact hd.writable fun l hl => (hw l (hv hl)).spelled
  cases h with
  | @expr s _ hs he =>
    obtain ⟨isOpen, v, hds, hv⟩ := hd s hs
    exact he.located hw (fun x hx => (hds.exprs_derivedIn x hx).mono hv) fun x hx =>
      List.mem_flatMap.mpr ⟨s, hs, hx⟩
  | target hs => exact htarget _ hs _ rfl
  | uninitialized hs => exact htarget _ hs _ rfl
  | initialized hs hp hi => exact hi ((hwritable _ hs).2.2.2 hp)
  | untyped hs ht => exact absurd ht (ofName?_of_isTypeText (hwritable _ hs).1)
  | @unreachable body before after values place s hb he =>
    have hs : s ∈ m.stmts := List.mem_flatten.mpr ⟨body, hb, by simp [he]⟩
    exact ⟨(hd s hs).cuts hw, before, values, place, s, after, he ▸ hb, rfl⟩

end

namespace Program

variable {source : String} {p : Program}

/-- The types of global variables and of parameters exist. -/
theorem types_of_parse (h : parse source = .ok p) :
    (∀ d ∈ p.globals, ValueType.ofName? d.type ≠ none) ∧
      ∀ m ∈ p.methods, ∀ q ∈ m.params, ValueType.ofName? q.type ≠ none := by
  have hw := (writable_of_parse h).1
  constructor
  · intro d hd
    obtain ⟨item, hi, hitem⟩ := List.mem_filterMap.mp hd
    cases item with
    | method m => cases hitem
    | globalVar d' =>
      cases hitem
      exact ofName?_of_isTypeText (hw _ hi).1.1
  · intro m hm q hq
    obtain ⟨item, hi, hitem⟩ := List.mem_filterMap.mp hm
    cases item with
    | globalVar d => cases hitem
    | method m' =>
      cases hitem
      exact ofName?_of_isTypeText ((hw _ hi).2.1 q hq).1

/-- **What reading guarantees to lowering.** Let a program be read from a text and be refused by
lowering, with whatever builtins and ids. Then all types that it declares exist, and the error is no
public initializer; a type that is refused is that of a `new` of `bool`, `int` or `float`; every
name that an error reports is written in the text at its place, and so is the receiver of an unknown
function and the member of a component that does not exist; and a statement that is refused stands
directly behind a return of the same body. -/
theorem located_of_parse {t : Builtins} {first : Ref} {e : LoweringError}
    (hp : parse source = .ok p) (h : p.lower t first = .error e) :
    (∀ d ∈ p.globals, ValueType.ofName? d.type ≠ none) ∧
    ∃ m, p.entry? = some m ∧ (∀ q ∈ m.params, ValueType.ofName? q.type ≠ none) ∧
      (∀ d span, .declare d span ∈ m.stmts → ValueType.ofName? d.type ≠ none) ∧
      e.Located source m := by
  obtain ⟨hglobals, hparams⟩ := types_of_parse hp
  obtain ⟨tokens, ht, ho, -⟩ := parse_eq_ok.mp hp
  obtain ⟨w, hw, hd⟩ := derived_of_ofTokens ht ho
  obtain ⟨m, hm⟩ := entry?_of_parse hp
  have hmem : m ∈ p.methods := List.mem_of_find?_eq_some hm
  have hstmts := (hd.methods m hmem).2
  refine ⟨hglobals, m, hm, hparams m hmem, fun d span hs => ?_, ?_⟩
  · obtain ⟨isOpen, v, hs, hv⟩ := hstmts _ hs
    exact ofName?_of_isTypeText (hs.writable fun l hl => (hw l (hv hl)).spelled).1
  · cases fault_of_lower h with
    | global hd ht => exact absurd ht (hglobals _ hd)
    | parameter hm' hq ht =>
      cases hm.symm.trans hm'
      exact absurd ht (hparams m hmem _ hq)
    | body hm' he =>
      cases hm.symm.trans hm'
      exact he.located hw hstmts

/-- A program that makes a truth value as if it were a vector, under a condition. -/
def newBool : String :=
  "float x; def Main() \x7b if (x > 1) \x7b return(x + new bool(x)); x = 2; \x7d \x7d"

theorem located_of_parse_newBool :
    ∃ p m, parse newBool = .ok p ∧
      p.lower Builtins.standard 1 = .error (.unknownType ⟨50, 54⟩ "bool") ∧ p.entry? = some m ∧
      Name.Stands newBool ⟨"bool", ⟨50, 54⟩⟩ ∧
      ∃ args, .construct ⟨"bool", ⟨50, 54⟩⟩ args ∈ m.exprs := by
  have hlower : (parse newBool).toOption.map (fun p => p.lower Builtins.standard 1) =
      some (.error (.unknownType ⟨50, 54⟩ "bool")) := by
    decide +kernel
  rcases hp : parse newBool with e | p <;> rw [hp] at hlower
  · cases hlower
  · have he := Option.some.inj hlower
    obtain ⟨-, m, hm, -, -, hs, -, hargs⟩ := located_of_parse hp he
    exact ⟨p, m, rfl, he, hm, hs, hargs⟩

end Program

end ScriptGraph
