import Mathlib.Data.List.Forall2
import ScriptGraph.Proofs.Lowering.Growth
import ScriptGraph.Proofs.Tree.Names

/-!
# Programs that are lowered alike

Lowering looks names up and copies places into errors, and does nothing else with either. So two
programs may differ in their places, and in the spelling of names that only a builtin can have, and
still have the same graph, or be refused for reasons that differ no more than the programs do.

* `Leeway` — what may differ;
* `Program.Alike`, `LoweringError.Alike` — programs and errors that differ no more than that;
* `Lowering.Alike` — two steps of building that do the same up to a view of their errors, from every
  builder with an invariant;
* `Program.lower_alike` — programs that are alike are lowered alike.
-/

namespace ScriptGraph

open Lowering

/-! ## What may differ -/

/-- In what two programs may differ. -/
structure Leeway where
  /-- the names that nothing is bound to, so that the case of their letters does not count -/
  free : String → Prop
  /-- the places that count as one -/
  near : Span → Span → Prop

section

variable (k : Leeway)

/-- Two names in places that count as one, which differ in the case of letters at most, and in that
only where names are `free`. -/
structure Name.Alike (free : Prop) (name name' : Name) : Prop where
  near : k.near name.span name'.span
  lower : Text.lower name'.text = Text.lower name.text
  free : name'.text ≠ name.text → free

/-- Two spellings of a name whose value is looked up. -/
def Name.AlikeUse (name name' : Name) : Prop :=
  name.Alike k (k.free name.text ∧ k.free name'.text) name'

mutual

/-- Expressions that differ in the names that are read, and in the functions whose receiver is
free. -/
inductive Expr.Alike : Expr → Expr → Prop where
  | number (value : Binary32) : Expr.Alike (.number value) (.number value)
  | var {name name' : Name} (h : name.AlikeUse k name') : Expr.Alike (.var name) (.var name')
  | neg {inner inner' : Expr} (h : Expr.Alike inner inner') : Expr.Alike (.neg inner) (.neg inner')
  | not {inner inner' : Expr} (h : Expr.Alike inner inner') : Expr.Alike (.not inner) (.not inner')
  | binary (op : BinaryOp) {left right left' right' : Expr} (hl : Expr.Alike left left')
      (hr : Expr.Alike right right') :
      Expr.Alike (.binary op left right) (.binary op left' right')
  | call {receiver receiver' member member' : Name} {args args' : List Expr}
      (hr : receiver.Alike k False receiver') (hm : member.Alike k (k.free receiver.text) member')
      (hargs : Expr.ArgsAlike args args') :
      Expr.Alike (.call receiver member args) (.call receiver' member' args')
  | construct {type type' : Name} {args args' : List Expr} (ht : type.Alike k False type')
      (hargs : Expr.ArgsAlike args args') :
      Expr.Alike (.construct type args) (.construct type' args')

/-- The same of lists of expressions. -/
inductive Expr.ArgsAlike : List Expr → List Expr → Prop where
  | nil : Expr.ArgsAlike [] []
  | cons {arg arg' : Expr} {args args' : List Expr} (h : Expr.Alike arg arg')
      (hargs : Expr.ArgsAlike args args') : Expr.ArgsAlike (arg :: args) (arg' :: args')

end

/-- Declarations of one name that differ in their initial values. -/
structure Declaration.Alike (d d' : Declaration) : Prop where
  type : d'.type = d.type
  name : d.name.Alike k False d'.name
  init : Option.Rel (Expr.Alike k) d.init d'.init
  isPublic : d'.isPublic = d.isPublic

mutual

/-- Statements that differ in their expressions. The name that an assignment is for may differ too;
a compound one reads it. -/
inductive Stmt.Alike : Stmt → Stmt → Prop where
  | declare {d d' : Declaration} {span span' : Span} (hs : k.near span span') (h : d.Alike k d') :
      Stmt.Alike (.declare d span) (.declare d' span')
  | assign {target target' : Name} (op : AssignOp) {value value' : Expr} {span span' : Span}
      (hs : k.near span span') (ht : target.AlikeUse k target') (hv : value.Alike k value') :
      Stmt.Alike (.assign target op value span) (.assign target' op value' span')
  | branch {test test' : Expr} {thenBody thenBody' : List Stmt} {span span' : Span}
      (hs : k.near span span') (h : test.Alike k test') (ht : Stmt.BodyAlike thenBody thenBody') :
      Stmt.Alike (.branch test thenBody none span) (.branch test' thenBody' none span')
  | branchElse {test test' : Expr} {thenBody thenBody' elseBody elseBody' : List Stmt}
      {span span' : Span} (hs : k.near span span') (h : test.Alike k test')
      (ht : Stmt.BodyAlike thenBody thenBody') (hf : Stmt.BodyAlike elseBody elseBody') :
      Stmt.Alike (.branch test thenBody (some elseBody) span)
        (.branch test' thenBody' (some elseBody') span')
  | ret {values values' : List Expr} {span span' : Span} (hs : k.near span span')
      (h : Expr.ArgsAlike k values values') : Stmt.Alike (.ret values span) (.ret values' span')
  | call {receiver receiver' member member' : Name} {args args' : List Expr} {span span' : Span}
      (hs : k.near span span')
      (h : (Expr.call receiver member args).Alike k (.call receiver' member' args')) :
      Stmt.Alike (.call receiver member args span) (.call receiver' member' args' span')

/-- The same of the statements of a body. -/
inductive Stmt.BodyAlike : List Stmt → List Stmt → Prop where
  | nil : Stmt.BodyAlike [] []
  | cons {s s' : Stmt} {rest rest' : List Stmt} (h : Stmt.Alike s s')
      (hrest : Stmt.BodyAlike rest rest') : Stmt.BodyAlike (s :: rest) (s' :: rest')

end

/-- Parameters of one name. -/
structure Parameter.Alike (p p' : Parameter) : Prop where
  type : p'.type = p.type
  name : p.name.Alike k False p'.name

/-- Methods of one name that differ in their bodies. -/
structure Method.Alike (m m' : Method) : Prop where
  name : m.name.Alike k False m'.name
  params : List.Forall₂ (Parameter.Alike k) m.params m'.params
  body : Stmt.BodyAlike k m.body m'.body

/-- Declarations at the top level that differ in expressions. -/
inductive Item.Alike : Item → Item → Prop where
  | globalVar {d d' : Declaration} (h : d.Alike k d') : Item.Alike (.globalVar d) (.globalVar d')
  | method {m m' : Method} (h : m.Alike k m') : Item.Alike (.method m) (.method m')

/-- Programs that differ in expressions. Both bind the same names. -/
def Program.Alike (p p' : Program) : Prop :=
  List.Forall₂ (Item.Alike k) p.items p'.items

/-- Causes of errors that differ no more than the programs which they are about. -/
inductive LoweringError.Alike : LoweringError → LoweringError → Prop where
  | unknownIdentifier {name name' : Name} (h : name.AlikeUse k name') :
      LoweringError.Alike (.unknownIdentifier name.span name.text)
        (.unknownIdentifier name'.span name'.text)
  | unknownMember {receiver member member' : Name} {span' : Span}
      (hr : k.near receiver.span span') (hm : member.Alike k (k.free receiver.text) member') :
      LoweringError.Alike (.unknownMember receiver.span receiver.text member.text)
        (.unknownMember span' receiver.text member'.text)
  | invalidComponent {span span' : Span} (h : k.near span span') (receiver member : String) :
      LoweringError.Alike (.invalidComponent span receiver member)
        (.invalidComponent span' receiver member)
  | unknownType {span span' : Span} (h : k.near span span') (type : String) :
      LoweringError.Alike (.unknownType span type) (.unknownType span' type)
  | uninitializedLocal {span span' : Span} (h : k.near span span') (name : String) :
      LoweringError.Alike (.uninitializedLocal span name) (.uninitializedLocal span' name)
  | unreachableStatement {span span' : Span} (h : k.near span span') :
      LoweringError.Alike (.unreachableStatement span) (.unreachableStatement span')
  | publicInitializer {span span' : Span} (h : k.near span span') (name : String) :
      LoweringError.Alike (.publicInitializer span name) (.publicInitializer span' name)

/-- A view of errors that shows no such difference between them. -/
def Leeway.Blurs (view : LoweringError → LoweringError) : Prop :=
  ∀ {e e' : LoweringError}, e.Alike k e' → view e = view e'

end

variable {k : Leeway}

theorem Name.Alike.text_eq {free : Prop} {name name' : Name} (h : name.Alike k free name')
    (hn : ¬free) : name'.text = name.text := by
  by_contra hne
  exact hn (h.free hne)

/-- One text in places that count as one. -/
theorem Name.Alike.of_text_eq {free : Prop} {name name' : Name}
    (hnear : k.near name.span name'.span) (ht : name'.text = name.text) :
    name.Alike k free name' :=
  ⟨hnear, congrArg Text.lower ht, fun hne => absurd ht hne⟩

theorem Stmt.Alike.span_near {s s' : Stmt} (h : s.Alike k s') : k.near s.span s'.span := by
  cases h <;> assumption

namespace Program.Alike

variable {p p' : Program}

theorem globals (h : p.Alike k p') :
    List.Forall₂ (Declaration.Alike k) p.globals p'.globals := by
  rw [Program.Alike] at h
  rw [Program.globals, Program.globals]
  generalize p.items = items, p'.items = items' at h ⊢
  induction h with
  | nil => exact .nil
  | cons h _ ih =>
    cases h with
    | globalVar h => exact .cons h ih
    | method h => exact ih

theorem methods (h : p.Alike k p') : List.Forall₂ (Method.Alike k) p.methods p'.methods := by
  rw [Program.Alike] at h
  rw [Program.methods, Program.methods]
  generalize p.items = items, p'.items = items' at h ⊢
  induction h with
  | nil => exact .nil
  | cons h _ ih =>
    cases h with
    | globalVar h => exact ih
    | method h => exact .cons h ih

/-- The entry methods, if there are any, are alike too. -/
theorem entry_rel (h : p.Alike k p') : Option.Rel (Method.Alike k) p.entry? p'.entry? := by
  have hm := h.methods
  rw [ Program.entry?, Program.entry?]
  generalize p.methods = ms, p'.methods = ms' at hm ⊢
  induction hm with
  | nil => exact .none
  | @cons m m' ms ms' h _ ih =>
    rw [List.find?_cons, List.find?_cons, h.name.text_eq not_false]
    cases m.name.text == Program.entryName with
    | true => exact .some h
    | false => exact ih

end Program.Alike

/-! ## Steps of building -/

/-- A builder in which no free name stands for something. -/
def Leeway.Respected (k : Leeway) (b : Builder) : Prop :=
  ∀ name, k.free name → b.scope.get? name = none

/-- A change of a builder after which no free name stands for something, if none did before. -/
def Leeway.Respects (k : Leeway) (b b' : Builder) : Prop :=
  k.Respected b → k.Respected b'

/-- The small steps of expressions bind nothing. -/
theorem Leeway.exprMoves (k : Leeway) : ExprMoves k.Respects where
  refl _ := id
  trans h h' hb := h' (h hb)
  freshRef _ := id
  report _ _ := id
  addNode _ _ := id
  addLiteral _ _ := id
  connect _ _ _ _ := id

namespace Lowering

variable {α β : Type}

/-- Binding a name that is not free. -/
theorem keeps_bindName {name : String} (hn : ¬k.free name) (binding : Binding) :
    Keeps k.Respects (bindName name binding) := by
  intro b hb other hother
  have hne : other ≠ name := fun h => hn (h ▸ hother)
  exact (Dictionary.get?_insert_of_ne hne b.scope binding).trans (hb other hother)

/-- Outputs and connections bind nothing. -/
theorem keeps_onGraph (f : Graph → Graph) : Keeps k.Respects (onGraph f) :=
  fun _ => id

theorem keeps_chain (source target : Ref) : Keeps k.Respects (chain source target) :=
  fun _ => id

/-- An outcome with a view of its error. -/
def viewed (view : LoweringError → LoweringError) :
    EStateM.Result LoweringError Builder α → EStateM.Result LoweringError Builder α
  | .ok a b => .ok a b
  | .error e b => .error (view e) b

/-- From every builder with the invariant `I`, `x` and `y` do the same, or are refused with errors of
which the view is the same, and they leave such a builder. -/
def Alike (view : LoweringError → LoweringError) (I : Builder → Prop) (x y : Lowering α) : Prop :=
  ∀ b, I b → viewed view (x b) = viewed view (y b) ∧ I (x.leaves b)

namespace Alike

section

variable {view : LoweringError → LoweringError} {I : Builder → Prop}

theorem same {x : Lowering α} (h : Keeps (fun b b' => I b → I b') x) : Alike view I x x :=
  fun b hb => ⟨rfl, h b hb⟩

theorem pure (a : α) : Alike view I (pure a : Lowering α) (pure a) :=
  fun _ hb => ⟨rfl, hb⟩

theorem throw {e e' : LoweringError} (h : view e = view e') :
    Alike view I (throw e : Lowering α) (throw e') :=
  fun b hb => ⟨congrArg (EStateM.Result.error · b) h, hb⟩

theorem bind {x y : Lowering α} {f f' : α → Lowering β} (h : Alike view I x y)
    (hf : ∀ a, Alike view I (f a) (f' a)) : Alike view I (x >>= f) (y >>= f') := by
  intro b hb
  obtain ⟨hout, hleft⟩ := h b hb
  simp only [leaves, Bind.bind, EStateM.bind] at hleft ⊢
  rcases hx : x b with ⟨a, b₁⟩ | ⟨e, b₁⟩ <;> rcases hy : y b with ⟨a', b₂⟩ | ⟨e', b₂⟩ <;>
    rw [hx, hy] at hout <;> rw [hx] at hleft
  · cases hout
    exact hf a b₁ hleft
  · cases hout
  · cases hout
  · injection hout with he hb'
    exact ⟨by simp only [viewed, he, hb'], hleft⟩

theorem discard {x y : Lowering α} (h : Alike view I x y) :
    Alike view I (discard x : Lowering PUnit) (discard y) :=
  h.bind fun _ => pure PUnit.unit

end

variable {view : LoweringError → LoweringError}

/-- Two spellings are looked up alike: either they are one, or neither stands for anything. What
stands for something is not free. -/
theorem lookup {name name' : String} {f f' : Option Binding → Lowering α}
    (hfree : name' ≠ name → k.free name ∧ k.free name')
    (hsome : ¬k.free name → ∀ binding,
      Alike view k.Respected (f (some binding)) (f' (some binding)))
    (hnone : Alike view k.Respected (f none) (f' none)) :
    Alike view k.Respected (binding? name >>= f) (binding? name' >>= f') := by
  intro b hb
  change viewed view (f (b.scope.get? name) b) = viewed view (f' (b.scope.get? name') b) ∧
    k.Respected ((f (b.scope.get? name)).leaves b)
  have hsame : b.scope.get? name' = b.scope.get? name := by
    by_cases h : name' = name
    · rw [h]
    · rw [hb name (hfree h).1, hb name' (hfree h).2]
  rw [hsame]
  rcases hfound : b.scope.get? name with _ | binding
  · exact hnone b hb
  · have hname : ¬k.free name := by
      intro h
      rw [hb name h] at hfound
      cases hfound
    exact hsome hname binding b hb

/-! ## Expressions -/

theorem component (hv : k.Blurs view) {receiver receiver' member member' : Name}
    (binding : Binding) (hr : receiver.Alike k False receiver')
    (hm : k.near member.span member'.span) (ht : member'.text = member.text) :
    Alike view k.Respected (component receiver member binding)
      (component receiver' member' binding) := by
  have hkeeps := k.exprMoves.component receiver member binding
  simp only [Lowering.component, hr.text_eq not_false, ht] at hkeeps ⊢
  generalize componentPin? member.text = found at hkeeps ⊢
  cases found with
  | none => exact throw (hv (.invalidComponent hm _ _))
  | some pin => exact same hkeeps

theorem namedValue (hv : k.Blurs view) (t : Builtins) {name name' : Name}
    (h : name.AlikeUse k name') :
    Alike view k.Respected (namedValue t name) (namedValue t name') := by
  have hs := k.exprMoves
  refine lookup h.free (fun _ binding => same (hs.currentValue binding)) ?_
  simp only [Builtins.constant?, h.lower]
  rcases t.get? (Text.lower name.text) with _ | opcode
  · exact throw (hv (.unknownIdentifier h))
  · exact same (hs.bind hs.freshRef fun _ => hs.bind (hs.addNode _) fun _ => hs.pure _)

mutual

theorem expr (hv : k.Blurs view) (t : Builtins) {e e' : Expr} (h : e.Alike k e') :
    Alike view k.Respected (expr t e) (expr t e') := by
  have hs := k.exprMoves
  cases h with
  | number value => exact same (hs.expr t (.number value))
  | var h => exact namedValue hv t h
  | neg h => exact (expr hv t h).bind fun w => same (hs.unary _ w)
  | not h => exact (expr hv t h).bind fun w => same (hs.unary _ w)
  | binary op hl hr =>
    exact (expr hv t hl).bind fun l => (expr hv t hr).bind fun r => same (hs.binary t op l r)
  | @call receiver receiver' member member' args args' hr hm hargs =>
    have htext := hr.text_eq not_false
    refine lookup (fun hne => absurd htext hne) (fun hbound binding => ?_) ?_
    · -- the receiver is bound, so the component has one spelling
      exact component hv binding hr hm.near (hm.text_eq hbound)
    · simp only [Builtins.member?, Builtins.resultType, htext, hm.lower]
      rcases t.get? (receiver.text ++ "." ++ Text.lower member.text) with _ | opcode
      · exact throw (hv (.unknownMember hr.near hm))
      · refine (same hs.freshRef).bind fun ref => (arguments hv t ref 0 hargs).bind fun _ => ?_
        exact (same (hs.addNode _)).bind fun _ => pure _
  | @construct type type' args args' ht hargs =>
    simp only [Lowering.expr, ht.text_eq not_false]
    rcases constructor? type.text with _ | ⟨opcode, valueType⟩
    · exact throw (hv (.unknownType ht.near _))
    · refine (same hs.freshRef).bind fun ref => (arguments hv t ref 0 hargs).bind fun _ => ?_
      exact (same (hs.addNode _)).bind fun _ => pure _

theorem arguments (hv : k.Blurs view) (t : Builtins) (target : Ref) (pin : Nat)
    {args args' : List Expr} (h : Expr.ArgsAlike k args args') :
    Alike view k.Respected (arguments t target pin args) (arguments t target pin args') := by
  cases h with
  | nil => exact pure false
  | cons h hargs =>
    refine (expr hv t h).bind fun w => (same (k.exprMoves.connect w target pin)).bind fun _ => ?_
    exact (arguments hv t target (pin + 1) hargs).bind fun _ => pure _

end

/-! ## Statements -/

theorem declaredType (hv : k.Blurs view) (type : String) {name name' : Name}
    (h : k.near name.span name'.span) :
    Alike view k.Respected (declaredType type name) (declaredType type name') := by
  simp only [Lowering.declaredType]
  rcases ValueType.ofName? type with _ | found
  · exact throw (hv (.unknownType h type))
  · exact pure found

theorem declare (hv : k.Blurs view) (t : Builtins) {d d' : Declaration} (h : d.Alike k d')
    (hd : ¬k.free d.name.text) : Alike view k.Respected (declare t d) (declare t d') := by
  have hs := k.exprMoves
  obtain ⟨htype, hname, hinit, hpublic⟩ := h
  simp only [Lowering.declare, htype, hname.text_eq not_false, hpublic]
  generalize d.init = init, d'.init = init' at hinit ⊢
  rcases d.isPublic with _ | _ <;> cases hinit
  · next h => exact (expr hv t h).bind fun w => same (keeps_bindName hd _)
  · exact throw (hv (.uninitializedLocal hname.near _))
  · exact throw (hv (.publicInitializer hname.near _))
  · refine (declaredType hv d.type hname.near).bind fun found => ?_
    refine (same hs.freshRef).bind fun ref => (same (hs.addLiteral _)).bind fun _ => ?_
    exact same (keeps_bindName hd _)

theorem assignedValue (hv : k.Blurs view) (t : Builtins) (binding : Binding) (op : AssignOp)
    {value value' : Expr} (h : value.Alike k value') :
    Alike view k.Respected (assignedValue t binding op value)
      (assignedValue t binding op value') := by
  have hs := k.exprMoves
  simp only [Lowering.assignedValue]
  rcases op.binaryOp? with _ | bop
  · exact (expr hv t h).bind fun _ => pure _
  · refine (same (hs.currentValue binding)).bind fun current => (expr hv t h).bind fun operand => ?_
    exact (same (hs.binary t bop current operand)).bind fun _ => pure _

/-- A value is stored under a name that is bound. -/
theorem store {name : String} (hn : ¬k.free name) (binding : Binding) (value : Wire) (last : Ref) :
    Alike view k.Respected (store name binding value last) (store name binding value last) := by
  have hs := k.exprMoves
  apply same
  cases binding with
  | wire wire => exact hs.bind (keeps_bindName hn _) fun _ => hs.pure _
  | parameter type pin => exact hs.bind (keeps_bindName hn _) fun _ => hs.pure _
  | globalVar type ref =>
    refine hs.bind hs.freshRef fun _ => hs.bind (hs.addNode _) fun _ => ?_
    exact hs.bind (hs.connect _ _ _) fun _ => hs.bind (keeps_chain _ _) fun _ => hs.pure _

theorem assign (hv : k.Blurs view) (t : Builtins) {target target' : Name} (op : AssignOp)
    {value value' : Expr} (condition : Option Wire) (last : Ref) (ht : target.AlikeUse k target')
    (h : value.Alike k value') :
    Alike view k.Respected (assign t target op value condition last)
      (assign t target' op value' condition last) := by
  refine lookup ht.free (fun hbound binding => ?_) (throw (hv (.unknownIdentifier ht)))
  rw [ht.text_eq fun hfree => hbound hfree.1]
  refine (assignedValue hv t binding op h).bind fun result => ?_
  have hgated := k.exprMoves.gated condition binding result.1 result.2
  exact (same hgated).bind fun kept => store hbound binding kept last

theorem outputs (hv : k.Blurs view) (t : Builtins) (index : Nat) {values values' : List Expr}
    (h : Expr.ArgsAlike k values values') :
    Alike view k.Respected (outputs t index values) (outputs t index values') := by
  have hs := k.exprMoves
  induction values generalizing values' index with
  | nil =>
    cases h
    exact pure ()
  | cons value values ih =>
    cases h with
    | cons h hrest =>
      refine (expr hv t h).bind fun w => (same (keeps_onGraph _)).bind fun _ => ?_
      exact (same (hs.connect w Ref.endpoint index)).bind fun _ => ih (index + 1) hrest

mutual

/-- Statements that are alike are lowered alike, if what they declare is not free. -/
theorem stmt (hv : k.Blurs view) (t : Builtins) (condition : Option Wire) (last : Ref) {s s' : Stmt}
    (h : s.Alike k s') (hd : ∀ name ∈ s.declared, ¬k.free name) :
    Alike view k.Respected (stmt t condition last s) (stmt t condition last s') := by
  have hs := k.exprMoves
  cases h with
  | declare _ h =>
    exact (declare hv t h (hd _ (List.mem_singleton_self _))).bind fun _ => pure last
  | assign op _ ht h => exact assign hv t op condition last ht h
  | branch _ h ht =>
    rw [Stmt.declared] at hd
    refine (expr hv t h).bind fun wire => ?_
    refine (same (hs.conjunction condition wire)).bind fun whenTrue => ?_
    exact (body hv t (some whenTrue) last ht hd).bind fun last => pure last
  | branchElse _ h ht hf =>
    rw [Stmt.declared, List.forall_mem_append] at hd
    refine (expr hv t h).bind fun wire => ?_
    refine (same (hs.conjunction condition wire)).bind fun whenTrue => ?_
    refine (body hv t (some whenTrue) last ht hd.1).bind fun last => ?_
    refine (same (hs.unary Opcode.not wire)).bind fun negated => ?_
    refine (same (hs.conjunction condition negated)).bind fun whenFalse => ?_
    exact body hv t (some whenFalse) last hf hd.2
  | ret _ h =>
    refine (outputs hv t 0 h).bind fun _ => ?_
    exact (same (keeps_chain last Ref.endpoint)).bind fun _ => pure Ref.endpoint
  | call _ h => exact (expr hv t h).discard.bind fun _ => pure last

theorem body (hv : k.Blurs view) (t : Builtins) (condition : Option Wire) (last : Ref)
    {stmts stmts' : List Stmt} (h : Stmt.BodyAlike k stmts stmts')
    (hd : ∀ name ∈ Stmt.bodyDeclared stmts, ¬k.free name) :
    Alike view k.Respected (body t condition last stmts) (body t condition last stmts') := by
  cases h with
  | nil => exact pure last
  | cons h hrest =>
    rw [Stmt.bodyDeclared, List.forall_mem_append] at hd
    refine (stmt hv t condition last h hd.1).bind fun last => ?_
    have hbody := body hv t condition last hrest hd.2
    cases h with
    | ret _ h =>
      cases hrest with
      | nil => exact hbody
      | cons hnext _ => exact throw (hv (.unreachableStatement hnext.span_near))
    | _ => exact hbody

end

/-! ## Programs -/

/-- An initial value of a global variable is not looked at. -/
theorem declareGlobal (hv : k.Blurs view) {d d' : Declaration} (h : d.Alike k d')
    (hd : ¬k.free d.name.text) :
    Alike view k.Respected (declareGlobal d) (declareGlobal d') := by
  have hs := k.exprMoves
  simp only [Lowering.declareGlobal, h.type, h.name.text_eq not_false]
  refine (declaredType hv d.type h.name.near).bind fun type => ?_
  cases type.defaultText? with
  | none => exact throw (hv (.unknownType h.name.near _))
  | some default =>
    refine (same hs.freshRef).bind fun ref => (same (keeps_onGraph _)).bind fun _ => ?_
    exact (same (keeps_bindName hd _)).bind fun _ => same (hs.report _)

theorem declareGlobals (hv : k.Blurs view) {ds ds' : List Declaration}
    (h : List.Forall₂ (Declaration.Alike k) ds ds')
    (hd : ∀ name ∈ ds.map (·.name.text), ¬k.free name) :
    Alike view k.Respected (declareGlobals ds) (declareGlobals ds') := by
  induction h with
  | nil => exact pure ()
  | cons h _ ih =>
    obtain ⟨hd, hds⟩ := List.forall_mem_cons.mp hd
    exact (declareGlobal hv h hd).bind fun _ => ih hds

theorem parameters (hv : k.Blurs view) (pin : Nat) {ps ps' : List Parameter}
    (h : List.Forall₂ (Parameter.Alike k) ps ps')
    (hp : ∀ name ∈ ps.map (·.name.text), ¬k.free name) :
    Alike view k.Respected (parameters pin ps) (parameters pin ps') := by
  induction h generalizing pin with
  | nil => exact pure ()
  | @cons p p' ps ps' h _ ih =>
    obtain ⟨hp, hps⟩ := List.forall_mem_cons.mp hp
    simp only [Lowering.parameters, h.type, h.name.text_eq not_false]
    refine (declaredType hv p.type h.name.near).bind fun type => ?_
    refine (same (keeps_onGraph _)).bind fun _ => ?_
    exact (same (keeps_bindName hp _)).bind fun _ => ih (pin + 1) hps

theorem method (hv : k.Blurs view) (t : Builtins) {m m' : Method} (h : m.Alike k m')
    (hm : ∀ name ∈ m.bound, ¬k.free name) :
    Alike view k.Respected (method t m) (method t m') := by
  obtain ⟨hp, hb⟩ := List.forall_mem_append.mp hm
  simp only [Lowering.method, h.name.text_eq not_false]
  refine (parameters hv 0 h.params hp).bind fun _ => ?_
  refine (body hv t none Ref.endpoint h.body hb).bind fun last => ?_
  exact same (k.exprMoves.report _)

theorem program (hv : k.Blurs view) (t : Builtins) {p p' : Program} (h : p.Alike k p')
    (hb : ∀ name ∈ p.bound, ¬k.free name) :
    Alike view k.Respected (program t p) (program t p') := by
  obtain ⟨hglobals, hmethods⟩ := List.forall_mem_append.mp hb
  refine (declareGlobals hv h.globals hglobals).bind fun _ => ?_
  have hentry := h.entry_rel
  rcases hm : p.entry? with _ | m <;> rcases hm' : p'.entry? with _ | m' <;> rw [hm, hm'] at hentry
  · exact same fun _ => id
  · cases hentry
  · cases hentry
  · have hbound : ∀ name ∈ m.bound, ¬k.free name := fun name hname =>
      hmethods name (List.mem_flatMap.mpr ⟨m, List.mem_of_find?_eq_some hm, hname⟩)
    cases hentry with
    | some h => exact (method hv t h hbound).bind fun _ => same fun _ => id

end Alike

end Lowering

/-- **Programs that are alike are lowered alike.** If they differ in free names and in places only,
and bind no free name, then they have the same graph, or are refused with errors of which every view
that knows no such difference is the same. -/
theorem Program.lower_alike {view : LoweringError → LoweringError} (hv : k.Blurs view)
    {p p' : Program} (h : p.Alike k p') (hb : ∀ name ∈ p.bound, ¬k.free name) (t : Builtins)
    (first : Ref) :
    (p'.lower t first).mapError view = (p.lower t first).mapError view := by
  have hstart : k.Respected (Builder.start first) := fun name _ => Dictionary.get?_empty name
  have hrun := (Lowering.Alike.program hv t h hb _ hstart).1
  rw [Program.lower, Program.lower]
  generalize program t p (Builder.start first) = r at hrun ⊢
  generalize program t p' (Builder.start first) = r' at hrun ⊢
  rcases r with ⟨g, b⟩ | ⟨e, b⟩ <;> rcases r' with ⟨g', b'⟩ | ⟨e', b'⟩
  · cases hrun
    rfl
  · cases hrun
  · cases hrun
  · injection hrun with he
    exact congrArg Except.error he.symm

end ScriptGraph
