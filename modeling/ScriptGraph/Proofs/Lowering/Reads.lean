import ScriptGraph.Proofs.Compilation
import ScriptGraph.Proofs.Lowering.Types

/-!
# Reads of names

Wherever a lowering reads a name it puts in a wire. The type of the wire is what is known of the name
at that point of the text: the declared type of a global variable, whatever was assigned to it, and for
every other name the type of the value that it was given last. Where all values that names are given
have the declared types, the declared types are those that lowering uses.

* `Read`, `Program.reads` — the reads of a lowering, found by lowering up to them;
* `Expr.reads_fit`, `Stmt.reads_fit` — they are those that the text asks for;
* `compile_types` — the types of reads and the operations of nodes, for a whole source.
-/

namespace ScriptGraph

open Lowering Effect

/-- A name that is read while a program is lowered. -/
structure Read where
  /-- the name -/
  name : String
  /-- the wire that is put in for it -/
  wire : Wire

/-- The read of a name of which something is known. -/
def Read.Fits (r : Read) (known : String × Kind) : Prop :=
  r.name = known.1 ∧ r.wire.type = known.2.type

/-- What is seen from where a step of building ends; nothing if the step is refused. -/
def Lowering.behind {α β : Type} (x : Lowering α) (b : Builder) (see : α → Builder → List β) :
    List β :=
  match x b with
  | .ok a b' => see a b'
  | .error _ _ => []

theorem Lowering.behind_ok {α β : Type} {x : Lowering α} {b b' : Builder} {a : α}
    (h : x b = .ok a b') (see : α → Builder → List β) : behind x b see = see a b' := by
  rw [behind, h]

/-- The read of what a name stands for. -/
def Builder.reads (b : Builder) (name : String) (binding : Binding) : List Read :=
  behind (currentValue binding) b fun wire _ => [⟨name, wire⟩]

namespace Expr

mutual

/-- The reads of names in an expression that is lowered from a builder on. -/
def reads (t : Builtins) (b : Builder) : Expr → List Read
  | .number _ => []
  | .var name => (b.scope.get? name.text).elim [] (b.reads name.text)
  | .neg inner => inner.reads t b
  | .not inner => inner.reads t b
  | .binary _ left right =>
    left.reads t b ++ behind (expr t left) b fun _ b₁ => right.reads t b₁
  | .call receiver _ args =>
    match b.scope.get? receiver.text with
    | some binding => b.reads receiver.text binding
    | none => behind freshRef b fun ref b₁ => argsReads t ref 0 b₁ args
  | .construct _ args => behind freshRef b fun ref b₁ => argsReads t ref 0 b₁ args

/-- The reads of names in some arguments. -/
def argsReads (t : Builtins) (target : Ref) (pin : Nat) (b : Builder) : List Expr → List Read
  | [] => []
  | arg :: args =>
    arg.reads t b ++ behind (expr t arg) b fun wire b₁ =>
      behind (connect wire target pin) b₁ fun _ b₂ => argsReads t target (pin + 1) b₂ args

end

/-- The reads of names in the results of a method. -/
def outputsReads (t : Builtins) (index : Nat) (b : Builder) : List Expr → List Read
  | [] => []
  | value :: values =>
    value.reads t b ++ behind (expr t value) b fun wire b₁ =>
      behind (do ensureOutput index; connect wire Ref.endpoint index) b₁ fun _ b₂ =>
        outputsReads t (index + 1) b₂ values

end Expr

namespace Stmt

mutual

/-- The reads of names in a statement that is lowered from a builder on. An assignment reads its
target for a compound operator, and else under a condition. -/
def reads (t : Builtins) (condition : Option Wire) (last : Ref) (b : Builder) : Stmt → List Read
  | .declare d _ => d.init.elim [] (Expr.reads t b)
  | .assign target op value _ =>
    (b.scope.get? target.text).elim [] fun binding =>
      match op.binaryOp? with
      | some _ =>
        b.reads target.text binding ++ behind (currentValue binding) b fun _ b₁ => value.reads t b₁
      | none =>
        value.reads t b ++
          if condition.isSome then
            behind (expr t value) b fun _ b₁ => b₁.reads target.text binding
          else []
  | .branch test thenBody none _ =>
    test.reads t b ++ behind (expr t test) b fun wire b₁ =>
      behind (conjunction condition wire) b₁ fun whenTrue b₂ =>
        bodyReads t (some whenTrue) last b₂ thenBody
  | .branch test thenBody (some elseBody) _ =>
    test.reads t b ++ behind (expr t test) b fun wire b₁ =>
      behind (conjunction condition wire) b₁ fun whenTrue b₂ =>
        bodyReads t (some whenTrue) last b₂ thenBody ++
          behind (body t (some whenTrue) last thenBody) b₂ fun last₁ b₃ =>
            behind (unary Opcode.not wire) b₃ fun negated b₄ =>
              behind (conjunction condition negated) b₄ fun whenFalse b₅ =>
                bodyReads t (some whenFalse) last₁ b₅ elseBody
  | .ret values _ => Expr.outputsReads t 0 b values
  | .call receiver member args _ => (Expr.call receiver member args).reads t b

/-- The reads of names in statements one after another. -/
def bodyReads (t : Builtins) (condition : Option Wire) (last : Ref) (b : Builder) :
    List Stmt → List Read
  | [] => []
  | s :: rest =>
    s.reads t condition last b ++ behind (stmt t condition last s) b fun last₁ b₁ =>
      bodyReads t condition last₁ b₁ rest

end

end Stmt

/-- The reads of names in a program that is lowered with ids from `first` on. -/
def Program.reads (p : Program) (t : Builtins) (first : Ref) : List Read :=
  p.entry?.elim [] fun m =>
    behind (do declareGlobals p.globals; parameters 0 m.params) (Builder.start first) fun _ b =>
      Stmt.bodyReads t none Ref.endpoint b m.body

/-! ## Reads and what is known -/

section

variable {t : Builtins} {kinds : Kinds}

theorem seen_reading (k : Kind) (name : String) : seen (k.reading name) = [(name, k)] := by
  rw [Kind.reading]
  split <;> rfl

theorem seen_storing (k : Kind) : seen k.storing = [] := by
  rw [Kind.storing]
  split <;> rfl

theorem seen_joining (conditional : Bool) : seen (Stmt.joining conditional) = [] := by
  cases conditional <;> rfl

theorem seen_choosing (conditional : Bool) : seen (Stmt.choosing conditional) = [] := by
  cases conditional <;> rfl

theorem Builder.reads_fit (b : Builder) {binding : Binding} {k : Kind}
    (ht : k.type = binding.type) (name : String) :
    List.Forall₂ Read.Fits (b.reads name binding) (seen (k.reading name)) := by
  rw [Builder.reads, behind_ok (currentValue_run binding b), seen_reading]
  exact .cons ⟨rfl, (b.type_reading binding).trans ht.symm⟩ .nil

mutual

/-- An expression reads the names that the text says, with the types that are known of them. -/
theorem Expr.reads_fit : ∀ (e : Expr) {b b' : Builder} {w : Wire}, expr t e b = .ok w b' →
    b.Typed kinds → List.Forall₂ Read.Fits (e.reads t b) (seen (e.effects t kinds))
  | .number value, b, b', w, h, hc => .nil
  | .var name, b, b', w, h, hc => by
    rw [Expr.reads, Expr.effects]
    rcases hb : b.scope.get? name.text with _ | binding
    · rw [hc.unbound hb]
      exact .nil
    · obtain ⟨k, hk, -, ht⟩ := hc.bound hb
      rw [hk]
      exact b.reads_fit ht name.text
  | .neg inner, b, b', w, h, hc => by
    rw [Lowering.expr] at h
    obtain ⟨v, b₁, h₁, -⟩ := bind_ok.mp h
    rw [Expr.reads, Expr.effects, seen_append_make]
    exact inner.reads_fit h₁ hc
  | .not inner, b, b', w, h, hc => by
    rw [Lowering.expr] at h
    obtain ⟨v, b₁, h₁, -⟩ := bind_ok.mp h
    rw [Expr.reads, Expr.effects, seen_append_make]
    exact inner.reads_fit h₁ hc
  | .binary op left right, b, b', w, h, hc => by
    rw [Lowering.expr] at h
    obtain ⟨l, b₁, h₁, h⟩ := bind_ok.mp h
    obtain ⟨r, b₂, h₂, h⟩ := bind_ok.mp h
    have hc₁ := hc.of_scope_eq (ExprLowered.of_run left h₁).scope_eq
    rw [Expr.reads, Expr.effects, seen_append_make, seen_append, behind_ok h₁]
    exact List.rel_append (left.reads_fit h₁ hc) (right.reads_fit h₂ hc₁)
  | .call receiver member args, b, b', w, h, hc => by
    rw [Lowering.expr] at h
    obtain ⟨found, b₁, h₁, h⟩ := bind_ok.mp h
    cases h₁
    rw [Expr.reads, Expr.effects]
    rcases hb : b.scope.get? receiver.text with _ | binding
    · rw [hb] at h
      rw [hc.unbound hb]
      dsimp only at h ⊢
      rw [seen_append_make]
      rcases ho : t.member? receiver.text member.text with _ | opcode
      · rw [ho] at h
        exact absurd h throw_ne_ok
      · rw [ho] at h
        obtain ⟨ref, b₁, h₁, h⟩ := bind_ok.mp h
        obtain ⟨readsPublic, b₂, h₂, -⟩ := bind_ok.mp h
        rw [behind_ok h₁]
        cases h₁
        exact Expr.argsReads_fit args h₂ hc
    · obtain ⟨k, hk, -, ht⟩ := hc.bound hb
      rw [hk]
      dsimp only
      rw [seen_append_make]
      exact b.reads_fit ht receiver.text
  | .construct type args, b, b', w, h, hc => by
    rw [Lowering.expr] at h
    rcases ho : constructor? type.text with _ | ⟨opcode, valueType⟩
    · rw [ho] at h
      exact absurd h throw_ne_ok
    · rw [ho] at h
      obtain ⟨ref, b₁, h₁, h⟩ := bind_ok.mp h
      obtain ⟨readsPublic, b₂, h₂, -⟩ := bind_ok.mp h
      rw [Expr.reads, Expr.effects, seen_append_make, behind_ok h₁]
      cases h₁
      exact Expr.argsReads_fit args h₂ hc

theorem Expr.argsReads_fit {target : Ref} : ∀ (args : List Expr) {pin : Nat} {b b' : Builder}
    {readsPublic : Bool}, arguments t target pin args b = .ok readsPublic b' → b.Typed kinds →
      List.Forall₂ Read.Fits (Expr.argsReads t target pin b args)
        (seen (Expr.argsEffects t kinds args))
  | [], pin, b, b', readsPublic, h, hc => .nil
  | arg :: args, pin, b, b', readsPublic, h, hc => by
    rw [Lowering.arguments] at h
    obtain ⟨w, b₁, h₁, h⟩ := bind_ok.mp h
    obtain ⟨u, b₂, h₂, h⟩ := bind_ok.mp h
    obtain ⟨others, b₃, h₃, h⟩ := bind_ok.mp h
    have hc₂ := hc.of_scope_eq (ExprLowered.of_run arg h₁).scope_eq
    rw [Expr.argsReads, Expr.argsEffects, seen_append, behind_ok h₁, behind_ok h₂]
    cases h₂
    exact List.rel_append (arg.reads_fit h₁ hc) (Expr.argsReads_fit args h₃ hc₂)

end

theorem Expr.outputsReads_fit : ∀ (values : List Expr) {index : Nat} {b b' : Builder} {u : Unit},
    outputs t index values b = .ok u b' → b.Typed kinds →
      List.Forall₂ Read.Fits (Expr.outputsReads t index b values)
        (seen (Expr.argsEffects t kinds values))
  | [], index, b, b', u, h, hc => .nil
  | value :: values, index, b, b', u, h, hc => by
    rw [Lowering.outputs] at h
    obtain ⟨w, b₁, h₁, h⟩ := bind_ok.mp h
    obtain ⟨_, b₂, h₂, h⟩ := bind_ok.mp h
    obtain ⟨_, b₃, h₃, h⟩ := bind_ok.mp h
    have hc₁ := hc.of_scope_eq (ExprLowered.of_run value h₁).scope_eq
    rw [Expr.outputsReads, Expr.argsEffects, seen_append, behind_ok h₁,
      behind_ok (bind_ok.mpr ⟨_, b₂, h₂, h₃⟩)]
    cases h₂
    cases h₃
    exact List.rel_append (value.reads_fit h₁ hc) (Expr.outputsReads_fit values h hc₁)

/-- The initial value of a declaration that succeeded was lowered. -/
theorem declare_init_ok {d : Declaration} {init : Expr} {b b' : Builder} {u : Unit}
    (h : declare t d b = .ok u b') (hi : d.init = some init) :
    ∃ w b₁, expr t init b = .ok w b₁ := by
  rw [Lowering.declare, hi] at h
  rcases hp : d.isPublic with _ | _
  · rw [hp] at h
    obtain ⟨w, b₁, h₁, -⟩ := bind_ok.mp h
    exact ⟨w, b₁, h₁⟩
  · rw [hp] at h
    exact absurd h throw_ne_ok

/-- An assignment reads its target as the text says. -/
theorem Stmt.assignReads_fit {condition : Option Wire} {last last' : Ref} {target : Name}
    {op : AssignOp} {value : Expr} {span : Span} {b b' : Builder}
    (h : Lowering.assign t target op value condition last b = .ok last' b')
    (hc : b.Typed kinds) :
    List.Forall₂ Read.Fits (Stmt.reads t condition last b (.assign target op value span))
      (seen (Stmt.effects t condition.isSome kinds (.assign target op value span))) := by
  rw [Lowering.assign] at h
  obtain ⟨found, b₁, h₁, h⟩ := bind_ok.mp h
  cases h₁
  rw [Stmt.reads, Stmt.effects]
  rcases hb : b.scope.get? target.text with _ | binding
  · rw [hc.unbound hb]
    exact .nil
  · obtain ⟨k, hk, -, ht⟩ := hc.bound hb
    rw [hb] at h
    obtain ⟨⟨new, previous⟩, b₁, h₁, -⟩ := bind_ok.mp h
    rw [assignedValue] at h₁
    rw [hk, Option.elim_some, Option.elim_some]
    rcases hop : op.binaryOp? with _ | bop
    · rw [hop] at h₁
      obtain ⟨w, b₂, h₂, -⟩ := bind_ok.mp h₁
      dsimp only
      rw [Stmt.assignEffects, seen_append, seen_append, seen_append, seen_choosing, seen_storing,
        List.append_nil, List.append_nil]
      refine List.rel_append (value.reads_fit h₂ hc) ?_
      rcases condition with _ | condition
      · exact .nil
      · rw [Option.isSome_some, if_pos rfl, if_pos rfl, behind_ok h₂]
        exact b₂.reads_fit ht target.text
    · rw [hop] at h₁
      obtain ⟨current, b₂, h₂, h₁⟩ := bind_ok.mp h₁
      obtain ⟨operand, b₃, h₃, -⟩ := bind_ok.mp h₁
      dsimp only
      rw [Stmt.assignEffects, seen_append, seen_append, seen_append_make, seen_append,
        seen_choosing, seen_storing, List.append_nil, List.append_nil, behind_ok h₂]
      rw [currentValue_run] at h₂
      cases h₂
      refine List.rel_append (b.reads_fit ht target.text) (value.reads_fit h₃ ?_)
      exact hc.of_scope_eq (b.scope_afterReading binding)

mutual

/-- A statement reads the names that the text says, with the types that are known of them. -/
theorem Stmt.reads_fit : ∀ (s : Stmt) {condition : Option Wire} {last last' : Ref}
    {b b' : Builder} {kinds : Kinds}, stmt t condition last s b = .ok last' b' →
      b.Typed kinds →
        List.Forall₂ Read.Fits (s.reads t condition last b)
          (seen (s.effects t condition.isSome kinds))
  | .declare d span, condition, last, last', b, b', kinds, h, hc => by
    rw [Lowering.stmt] at h
    obtain ⟨u, b₁, h₁, -⟩ := bind_ok.mp h
    rw [Stmt.reads, Stmt.effects]
    rcases hi : d.init with _ | init
    · exact .nil
    · obtain ⟨w, b₂, h₂⟩ := declare_init_ok h₁ hi
      exact init.reads_fit h₂ hc
  | .assign target op value span, condition, last, last', b, b', kinds, h, hc => by
    rw [Lowering.stmt] at h
    exact Stmt.assignReads_fit h hc
  | .branch test thenBody none span, condition, last, last', b, b', kinds, h, hc => by
    obtain ⟨w, b₁, last₁, b₂, h₁, h₂, -⟩ := branch_ok h
    have hc₁ := hc.of_scope_eq ((b₁.scope_afterConjunction condition w).trans
      (ExprLowered.of_run test h₁).scope_eq)
    rw [Stmt.reads, Stmt.effects, behind_ok h₁, behind_ok (conjunction_run condition w b₁),
      seen_append, seen_append, seen_joining, List.append_nil]
    exact List.rel_append (test.reads_fit h₁ hc) (Stmt.bodyReads_fit thenBody h₂ hc₁)
  | .branch test thenBody (some elseBody) span, condition, last, last', b, b', kinds, h, hc => by
    obtain ⟨w, b₁, last₁, b₂, h₁, h₂, h₃⟩ := branch_ok h
    have hc₁ := hc.of_scope_eq ((b₁.scope_afterConjunction condition w).trans
      (ExprLowered.of_run test h₁).scope_eq)
    have hc₂ := ((BodyLowered.of_run thenBody h₂).made_eq hc₁).2
    have hnot : unary Opcode.not w b₂ = .ok (.ofRef .bool b₂.next)
        (b₂.operate Opcode.not (placeFor w.isPublic) [w]) := rfl
    have hc₃ := hc₂.of_scope_eq (Builder.scope_afterConjunction
      (b₂.operate Opcode.not (placeFor w.isPublic) [w]) condition (.ofRef .bool b₂.next))
    rw [Stmt.reads, Stmt.effects, behind_ok h₁, behind_ok (conjunction_run condition w b₁),
      behind_ok h₂, behind_ok hnot, behind_ok (conjunction_run condition _ _), ← List.append_assoc]
    rw [seen_append, seen_append, seen_append_make, seen_append, seen_append, seen_joining,
      List.append_nil, List.append_nil]
    exact List.rel_append (List.rel_append (test.reads_fit h₁ hc)
      (Stmt.bodyReads_fit thenBody h₂ hc₁)) (Stmt.bodyReads_fit elseBody h₃ hc₃)
  | .ret values span, condition, last, last', b, b', kinds, h, hc => by
    rw [Lowering.stmt] at h
    obtain ⟨u, b₁, h₁, -⟩ := bind_ok.mp h
    exact Expr.outputsReads_fit values h₁ hc
  | .call receiver member args span, condition, last, last', b, b', kinds, h, hc => by
    rw [Lowering.stmt] at h
    obtain ⟨u, b₁, h₁, -⟩ := bind_ok.mp h
    obtain ⟨w, hw⟩ := discard_ok h₁
    exact Expr.reads_fit _ hw hc

/-- So do statements one after another. -/
theorem Stmt.bodyReads_fit : ∀ (body : List Stmt) {condition : Option Wire} {last last' : Ref}
    {b b' : Builder} {kinds : Kinds}, Lowering.body t condition last body b = .ok last' b' →
      b.Typed kinds →
        List.Forall₂ Read.Fits (Stmt.bodyReads t condition last b body)
          (seen (Stmt.bodyEffects t condition.isSome kinds body))
  | [], condition, last, last', b, b', kinds, h, hc => .nil
  | s :: rest, condition, last, last', b, b', kinds, h, hc => by
    obtain ⟨last₁, b₁, h₁, h₂⟩ := body_cons_ok h
    have hc₁ := ((StmtLowered.of_run s h₁).made_eq hc).2
    rw [Stmt.bodyReads, Stmt.bodyEffects, seen_append, behind_ok h₁]
    exact List.rel_append (s.reads_fit h₁ hc) (Stmt.bodyReads_fit rest h₂ hc₁)

end

end

/-! ## Programs -/

theorem Graph.opcodes_repair (g : Graph) : g.repair.opcodes = g.opcodes := by
  simp only [opcodes, repair, List.map_map]
  refine List.map_congr_left fun n _ => ?_
  simp only [Function.comp]
  split <;> rfl

/-- **Types travel with values.** Take a source that compiles. Its lowering reads the names that the
text says, in the order of the text, and the wire put in for a name has the type that is known of the
name there. For a global variable that is its declared type; if all values that names are given have
the declared types, it is the declared type of every name. The nodes perform the operations that the
text asks for with these types: an operator is the one on vectors just if an operand has the type of
vectors. -/
theorem compile_types {o : Options} {source : String} {c : Compiled}
    (h : o.compile source = .ok c) :
    ∃ p, Program.parse source = .ok p ∧
      List.Forall₂ Read.Fits (p.reads o.builtins o.first) (seen (p.effects o.builtins)) ∧
      (∀ known ∈ seen (p.effects o.builtins),
        known.2.standing = .variable ∨ p.agrees = true →
          known.2.declared = some known.2.type) ∧
      c.graph.opcodes = made (p.effects o.builtins) := by
  obtain ⟨-, p, g, hp, hg, rfl⟩ := Options.compile_ok h
  obtain ⟨m, hm⟩ := Program.entry?_of_parse hp
  obtain ⟨b₁, b₂, last, b₃, h₁, h₂, h₃, rfl⟩ := lower_entry_ok hg hm
  have hglobals := GlobalsLowered.of_run _ h₁
  have hparams := ParamsLowered.of_run _ h₂
  obtain ⟨hc, ha⟩ := Program.typed_kinds hglobals hparams
  refine ⟨p, hp, ?_, fun known hk hd => Program.declared_of_seen hm ha hk hd, ?_⟩
  · rw [Program.reads, Program.effects, hm, Option.elim_some, Option.elim_some,
      behind_ok (bind_ok.mpr ⟨_, b₁, h₁, h₂⟩)]
    exact Stmt.bodyReads_fit m.body h₃ hc
  · have hnodes : b₂.graph.opcodes = [] := by
      rw [hparams.graph_eq.1, hglobals.graph_eq]
      rfl
    rw [Graph.opcodes_repair, Program.effects, hm, Option.elim_some,
      ← List.nil_append (made _), ← hnodes]
    exact ((BodyLowered.of_run m.body h₃).made_eq hc).1

/-- A source in which values have the declared types of their names. -/
def agreeing : String :=
  "float g; def Main(bool c) \x7b Vector3 v = new Vector3(1, 2, 3); " ++
    "if (c) \x7b v = v * 2; g = g + 1; \x7d return(v + g); \x7d"

/-- Every read in `agreeing` has the declared type of its name, and the operators on `v` are those on
vectors. -/
theorem compile_types_agreeing :
    ∃ c p, ({} : Options).compile agreeing = .ok c ∧ Program.parse agreeing = .ok p ∧
      List.Forall₂ (fun r known => r.name = known.1 ∧ known.2.declared = some r.wire.type)
        (p.reads Builtins.standard 1) (seen (p.effects Builtins.standard)) ∧
      c.graph.opcodes = made (p.effects Builtins.standard) := by
  have hagrees : (Program.parse agreeing).toOption.all Program.agrees = true := by decide +kernel
  have hok : (({} : Options).compile agreeing).toOption.isSome = true := by decide +kernel
  rcases hc : ({} : Options).compile agreeing with e | c
  · rw [hc] at hok
    cases hok
  · obtain ⟨p, hp, hfit, hdeclared, hmade⟩ := compile_types hc
    rw [hp] at hagrees
    refine ⟨c, p, rfl, hp, ?_, hmade⟩
    rw [List.forall₂_iff_zip] at hfit ⊢
    refine ⟨hfit.1, fun {r known} hm => ⟨(hfit.2 hm).1, ?_⟩⟩
    rw [(hfit.2 hm).2]
    exact hdeclared known (List.of_mem_zip hm).2 (.inr hagrees)

/-- A source in which a name that is declared as a number gets a vector, and one that is declared as a
vector gets a number. -/
def disagreeing : String :=
  "def Main(Vector3 v) \x7b float x = v; v = 1; return(x + x, v + v); \x7d"

/-- The declared type of a name need not be the one that is used: in `disagreeing` the sum of two
numbers becomes an operation on vectors, and the sum of two vectors one on numbers. -/
theorem declared_types_not_carried :
    (({} : Options).compile disagreeing).toOption.map (fun c => c.graph.nodes.map (·.opcode)) =
        some [17, 5] ∧
      Builtins.standard.operator? "+" true = some 17 ∧
      Builtins.standard.operator? "+" false = some 5 ∧
      (Program.parse disagreeing).toOption.map (fun p =>
          (seen (p.effects Builtins.standard)).map fun known => (known.1, known.2.declared)) =
        some [("v", some .vector3), ("x", some .float), ("x", some .float), ("v", some .vector3),
          ("v", some .vector3)] ∧
      (Program.parse disagreeing).toOption.map (fun p =>
          (p.reads Builtins.standard 1).map fun r => (r.name, r.wire.type)) =
        some [("v", .vector3), ("x", .vector3), ("x", .vector3), ("v", .float), ("v", .float)] := by
  decide +kernel

end ScriptGraph
