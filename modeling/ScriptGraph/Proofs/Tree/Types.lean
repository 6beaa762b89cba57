import ScriptGraph.Lowering.Expression
import ScriptGraph.Proofs.Tree.Roles

/-!
# The types of names in a text

A type travels with a value. A global variable has the type of its declaration; every other name has
the type of the value that was given to it last, in the order of the text and whether or not the
statement that gave it would be reached. The type that a declaration names counts where there is no
initial value. All this can be read off the text.

* `Kind`, `Kinds` — what is known of a name, and of all names, at a point of the text;
* `Expr.type` — the type of an expression there;
* `Stmt.retype` — what is known behind a statement;
* `Effect`, `Expr.effects`, `Stmt.effects`, `Program.effects` — the reads of names and the nodes that
  lowering makes, in order, with the types that decide between operations;
* `Stmt.given`, `Program.agrees` — do names only get values of their declared types?
-/

namespace ScriptGraph

open Lowering

/-! ## Kinds of names -/

/-- What is known of a name at a point of the text. -/
structure Kind where
  /-- what the name stands for -/
  standing : Standing
  /-- the type of its latest declaration -/
  declared : Option ValueType
  /-- the type of its value -/
  type : ValueType
  deriving DecidableEq, Repr

namespace Kind

/-- A name whose value has the type of its declaration. -/
def ofDeclared (standing : Standing) (type : String) : Kind :=
  ⟨standing, ValueType.ofName? type, (ValueType.ofName? type).getD .builtin⟩

/-- Has the value the type of the declaration? -/
def agrees (k : Kind) : Bool :=
  k.declared == some k.type

/-- The name gets a value of some type. A global variable keeps its own. -/
def assign (k : Kind) (type : ValueType) : Kind :=
  match k.standing with
  | .variable => k
  | .value => { k with type := type }

theorem type_ofDeclared {standing : Standing} {name : String} {type : ValueType}
    (h : ValueType.ofName? name = some type) : (ofDeclared standing name).type = type := by
  rw [ofDeclared, h]
  rfl

theorem agrees_ofDeclared {standing : Standing} {name : String} {type : ValueType}
    (h : ValueType.ofName? name = some type) : (ofDeclared standing name).agrees = true := by
  rw [agrees, ofDeclared, h]
  exact beq_self_eq_true _

theorem assign_variable {k : Kind} (h : k.standing = .variable) (type : ValueType) :
    k.assign type = k := by
  rw [assign, h]

theorem assign_value {k : Kind} (h : k.standing = .value) (type : ValueType) :
    k.assign type = { k with type := type } := by
  rw [assign, h]

end Kind

/-- What is known of the names. -/
abbrev Kinds := String → Option Kind

namespace Kinds

/-- Something else becomes known of a name. -/
def set (kinds : Kinds) (name : String) (kind : Option Kind) : Kinds :=
  fun other => if other = name then kind else kinds other

/-- Names are declared with their types, one after another. -/
def declareAll (standing : Standing) : List (String × String) → Kinds → Kinds
  | [], kinds => kinds
  | d :: ds, kinds => declareAll standing ds (kinds.set d.1 (some (.ofDeclared standing d.2)))

/-- Something holds of all names. -/
def All (P : Kind → Prop) (kinds : Kinds) : Prop :=
  ∀ name, ∀ kind ∈ kinds name, P kind

/-- All names have the types that they were declared with. -/
def Agree (kinds : Kinds) : Prop :=
  kinds.All fun k => k.agrees = true

theorem All.set {P : Kind → Prop} {kinds : Kinds} (h : kinds.All P) (name : String)
    {kind : Option Kind} (hk : ∀ k ∈ kind, P k) : (kinds.set name kind).All P := by
  intro other k ho
  rw [Kinds.set] at ho
  split at ho
  · exact hk k ho
  · exact h other k ho

end Kinds

/-- The type of an expression. -/
def Expr.type (kinds : Kinds) : Expr → ValueType
  | .number _ => .float
  | .var name => (kinds name.text).elim .builtin (·.type)
  | .neg _ => .bool
  | .not _ => .bool
  | .binary _ left right => binaryType (left.type kinds) (right.type kinds)
  | .call receiver member _ =>
    if (kinds receiver.text).isSome then .float else Builtins.resultType member.text
  | .construct type _ => (constructor? type.text).elim .builtin Prod.snd

/-- The type of an assigned value, by whether the old value takes part. -/
def AssignOp.type (op : AssignOp) (old new : ValueType) : ValueType :=
  if op.binaryOp?.isSome then binaryType old new else new

/-- What a local declaration makes known of its name. -/
def Declaration.kind (kinds : Kinds) (d : Declaration) : Kind :=
  match d.init with
  | none => .ofDeclared .value d.type
  | some init => { Kind.ofDeclared .value d.type with type := init.type kinds }

theorem Declaration.standing_kind (kinds : Kinds) (d : Declaration) :
    (d.kind kinds).standing = .value := by
  rw [Declaration.kind]
  split <;> rfl

namespace Stmt

/-- What is known of the target of an assignment behind it. -/
def assigned (kinds : Kinds) (target : String) (op : AssignOp) (value : Expr) : Option Kind :=
  (kinds target).map fun kind => kind.assign (op.type kind.type (value.type kinds))

mutual

/-- What is known of the names behind a statement. -/
def retype (kinds : Kinds) : Stmt → Kinds
  | .declare d _ => kinds.set d.name.text (some (d.kind kinds))
  | .assign target op value _ => kinds.set target.text (assigned kinds target.text op value)
  | .branch _ thenBody none _ => bodyRetype kinds thenBody
  | .branch _ thenBody (some elseBody) _ => bodyRetype (bodyRetype kinds thenBody) elseBody
  | .ret _ _ => kinds
  | .call _ _ _ _ => kinds

/-- What is known of the names behind some statements. -/
def bodyRetype (kinds : Kinds) : List Stmt → Kinds
  | [] => kinds
  | s :: rest => bodyRetype (s.retype kinds) rest

end

mutual

/-- What a statement makes known of names, one for each declaration and each assignment. -/
def given (kinds : Kinds) : Stmt → List Kind
  | .declare d _ => [d.kind kinds]
  | .assign target op value _ => (assigned kinds target.text op value).toList
  | .branch _ thenBody none _ => bodyGiven kinds thenBody
  | .branch _ thenBody (some elseBody) _ =>
    bodyGiven kinds thenBody ++ bodyGiven (bodyRetype kinds thenBody) elseBody
  | .ret _ _ => []
  | .call _ _ _ _ => []

/-- What some statements make known of names. -/
def bodyGiven (kinds : Kinds) : List Stmt → List Kind
  | [] => []
  | s :: rest => s.given kinds ++ bodyGiven (s.retype kinds) rest

end

end Stmt

/-! ## Effects of lowering -/

/-- What lowering does. -/
inductive Effect where
  /-- the value of a name is read -/
  | read (name : String) (kind : Kind)
  /-- a node is made, if there is an operation for it -/
  | make (opcode : Option Opcode)
  deriving DecidableEq, Repr

namespace Effect

/-- The name that is read. -/
def read? : Effect → Option (String × Kind)
  | .read name kind => some (name, kind)
  | .make _ => none

/-- The operation of the node that is made. -/
def make? : Effect → Option (Option Opcode)
  | .read _ _ => none
  | .make opcode => some opcode

/-- The names that are read. -/
def seen (effects : List Effect) : List (String × Kind) :=
  effects.filterMap read?

/-- The operations of the nodes that are made. -/
def made (effects : List Effect) : List (Option Opcode) :=
  effects.filterMap make?

theorem seen_append (effects effects' : List Effect) :
    seen (effects ++ effects') = seen effects ++ seen effects' :=
  List.filterMap_append

/-- A node reads nothing. -/
theorem seen_append_make (effects : List Effect) (opcode : Option Opcode) :
    seen (effects ++ [.make opcode]) = seen effects := by
  rw [seen_append]
  exact List.append_nil _

theorem made_append (effects effects' : List Effect) :
    made (effects ++ effects') = made effects ++ made effects' :=
  List.filterMap_append

theorem mem_seen {effects : List Effect} {name : String} {kind : Kind}
    (h : (name, kind) ∈ seen effects) : .read name kind ∈ effects := by
  obtain ⟨effect, hm, hr⟩ := List.mem_filterMap.mp h
  cases effect with
  | read other k =>
    cases hr
    exact hm
  | make opcode => cases hr

end Effect

namespace Kind

/-- The value of a name is read; that of a global variable by a node. -/
def reading (k : Kind) (name : String) : List Effect :=
  match k.standing with
  | .variable => [.read name k, .make (some Opcode.readGlobal)]
  | .value => [.read name k]

/-- A value is stored under a name; in a global variable by a node. -/
def storing (k : Kind) : List Effect :=
  match k.standing with
  | .variable => [.make (some Opcode.writeGlobal)]
  | .value => []

end Kind

/-- The operation that takes a component of a value. -/
def splitter (type : ValueType) : Opcode :=
  if type = .vector3 then Opcode.splitVector3 else Opcode.splitVector2

namespace Expr

mutual

/-- The effects for an expression. -/
def effects (t : Builtins) (kinds : Kinds) : Expr → List Effect
  | .number _ => []
  | .var name =>
    match kinds name.text with
    | some kind => kind.reading name.text
    | none => [.make (t.constant? name.text)]
  | .neg inner => inner.effects t kinds ++ [.make (some Opcode.negate)]
  | .not inner => inner.effects t kinds ++ [.make (some Opcode.not)]
  | .binary op left right =>
    left.effects t kinds ++ right.effects t kinds ++
      [.make (t.operator? op.symbol (isVectorOp (left.type kinds) (right.type kinds)))]
  | .call receiver member args =>
    match kinds receiver.text with
    | some kind => kind.reading receiver.text ++ [.make (some (splitter kind.type))]
    | none => argsEffects t kinds args ++ [.make (t.member? receiver.text member.text)]
  | .construct type args =>
    argsEffects t kinds args ++ [.make ((constructor? type.text).map Prod.fst)]

/-- The effects for some arguments. -/
def argsEffects (t : Builtins) (kinds : Kinds) : List Expr → List Effect
  | [] => []
  | arg :: args => arg.effects t kinds ++ argsEffects t kinds args

end

end Expr

namespace Stmt

/-- A condition is joined with an outer one. -/
def joining (conditional : Bool) : List Effect :=
  if conditional then [.make (some Opcode.and)] else []

/-- The new value is chosen under a condition. -/
def choosing (conditional : Bool) : List Effect :=
  if conditional then [.make (some Opcode.select)] else []

/-- The effects for an assignment to a name of some kind. Under a condition the previous value takes
part; where an operator has read it, it is not read again. -/
def assignEffects (t : Builtins) (conditional : Bool) (kinds : Kinds) (target : String)
    (kind : Kind) (op : Option BinaryOp) (value : Expr) : List Effect :=
  match op with
  | none =>
    value.effects t kinds ++ (if conditional then kind.reading target else []) ++
      choosing conditional ++ kind.storing
  | some op =>
    kind.reading target ++ value.effects t kinds ++
      [.make (t.operator? op.symbol (isVectorOp kind.type (value.type kinds)))] ++
      choosing conditional ++ kind.storing

mutual

/-- The effects for a statement, which may stand under a condition. -/
def effects (t : Builtins) (conditional : Bool) (kinds : Kinds) : Stmt → List Effect
  | .declare d _ => d.init.elim [] (Expr.effects t kinds)
  | .assign target op value _ =>
    (kinds target.text).elim [] fun kind =>
      assignEffects t conditional kinds target.text kind op.binaryOp? value
  | .branch test thenBody none _ =>
    test.effects t kinds ++ joining conditional ++ bodyEffects t true kinds thenBody
  | .branch test thenBody (some elseBody) _ =>
    test.effects t kinds ++ joining conditional ++ bodyEffects t true kinds thenBody ++
      [.make (some Opcode.not)] ++ joining conditional ++
      bodyEffects t true (bodyRetype kinds thenBody) elseBody
  | .ret values _ => Expr.argsEffects t kinds values
  | .call receiver member args _ => (Expr.call receiver member args).effects t kinds

/-- The effects for statements one after another. -/
def bodyEffects (t : Builtins) (conditional : Bool) (kinds : Kinds) : List Stmt → List Effect
  | [] => []
  | s :: rest =>
    s.effects t conditional kinds ++ bodyEffects t conditional (s.retype kinds) rest

end

end Stmt

/-! ## What is read -/

theorem Kind.eq_of_mem_reading {k kind : Kind} {name other : String}
    (h : Effect.read other kind ∈ k.reading name) : other = name ∧ kind = k := by
  rw [Kind.reading] at h
  split at h <;> simpa using h

theorem Kind.not_mem_storing {k kind : Kind} {name : String} :
    Effect.read name kind ∉ k.storing := by
  rw [Kind.storing]
  split <;> simp

theorem Stmt.not_mem_joining {conditional : Bool} {name : String} {kind : Kind} :
    Effect.read name kind ∉ Stmt.joining conditional := by
  cases conditional <;> simp [Stmt.joining]

section

variable {t : Builtins} {kinds : Kinds} {name : String} {kind : Kind}

mutual

/-- An expression reads names as what they are known for. -/
theorem Expr.known_of_read : ∀ e : Expr, Effect.read name kind ∈ e.effects t kinds →
    kinds name = some kind
  | .number _, h => by simp [effects] at h
  | .var other, h => by
    rw [effects] at h
    split at h
    · next k hk =>
      obtain ⟨rfl, rfl⟩ := Kind.eq_of_mem_reading h
      exact hk
    · simp at h
  | .neg inner, h => known_of_read inner (by simpa [effects] using h)
  | .not inner, h => known_of_read inner (by simpa [effects] using h)
  | .binary op left right, h => by
    have h : Effect.read name kind ∈ left.effects t kinds ∨
        Effect.read name kind ∈ right.effects t kinds := by
      simpa [effects] using h
    exact h.elim (known_of_read left) (known_of_read right)
  | .call receiver member args, h => by
    rw [effects] at h
    split at h
    · next k hk =>
      obtain ⟨rfl, rfl⟩ := Kind.eq_of_mem_reading (by simpa using h)
      exact hk
    · exact argsKnown_of_read args (by simpa using h)
  | .construct type args, h => argsKnown_of_read args (by simpa [effects] using h)

theorem Expr.argsKnown_of_read : ∀ args : List Expr,
    Effect.read name kind ∈ argsEffects t kinds args → kinds name = some kind
  | [], h => by simp [argsEffects] at h
  | arg :: args, h => by
    rw [argsEffects] at h
    exact (List.mem_append.mp h).elim (known_of_read arg) (argsKnown_of_read args)

end

end

namespace Stmt

variable {t : Builtins} {P : Kind → Prop}

/-- What holds of all names holds of those that an assignment reads. -/
theorem all_of_assignEffects {conditional : Bool} {kinds : Kinds} {target name : String}
    {k kind : Kind} {op : Option BinaryOp} {value : Expr} (hall : kinds.All P)
    (hk : kinds target = some k)
    (h : Effect.read name kind ∈ assignEffects t conditional kinds target k op value) : P kind := by
  have h : Effect.read name kind ∈ value.effects t kinds ∨
      Effect.read name kind ∈ k.reading target := by
    rcases op with _ | op <;> rcases conditional with _ | _ <;>
      grind [assignEffects, choosing, Kind.not_mem_storing]
  rcases h with h | h
  · exact hall name kind (value.known_of_read h)
  · obtain ⟨rfl, rfl⟩ := Kind.eq_of_mem_reading h
    exact hall _ _ hk

mutual

/-- What holds of all names, and of every name that a statement gives a value to, holds behind the
statement and wherever it reads a name. A global variable is left as it is. -/
theorem all_of_given : ∀ (s : Stmt) (conditional : Bool) {kinds : Kinds}, kinds.All P →
    (∀ k ∈ s.given kinds, k.standing = .value → P k) →
      (s.retype kinds).All P ∧
        ∀ name kind, Effect.read name kind ∈ s.effects t conditional kinds → P kind
  | .declare d _, conditional, kinds, hall, hgiven => by
    refine ⟨hall.set _ ?_, fun name kind h => ?_⟩
    · intro k hk
      cases hk
      exact hgiven _ (List.mem_singleton_self _) (d.standing_kind kinds)
    · rw [effects] at h
      rcases hi : d.init with _ | init
      · simp [hi] at h
      · rw [hi] at h
        exact hall name kind (init.known_of_read h)
  | .assign target op value _, conditional, kinds, hall, hgiven => by
    refine ⟨hall.set _ fun k hk => ?_, fun name kind h => ?_⟩
    · obtain ⟨old, hold, rfl⟩ := Option.map_eq_some_iff.mp hk
      rcases hs : old.standing with _ | _
      · rw [Kind.assign_variable hs]
        exact hall _ _ hold
      · exact hgiven _ (Option.mem_toList.mpr hk) (by rw [Kind.assign_value hs, hs])
    · rw [effects] at h
      rcases hk : kinds target.text with _ | k
      · simp [hk] at h
      · rw [hk] at h
        exact all_of_assignEffects hall hk h
  | .branch test thenBody none _, conditional, kinds, hall, hgiven => by
    obtain ⟨h₁, hr₁⟩ := bodyAll_of_given thenBody true hall hgiven
    refine ⟨h₁, fun name kind h => ?_⟩
    have h : Effect.read name kind ∈ test.effects t kinds ∨
        Effect.read name kind ∈ bodyEffects t true kinds thenBody := by
      simpa [effects, not_mem_joining] using h
    rcases h with h | h
    · exact hall name kind (test.known_of_read h)
    · exact hr₁ name kind h
  | .branch test thenBody (some elseBody) _, conditional, kinds, hall, hgiven => by
    obtain ⟨h₁, hr₁⟩ := bodyAll_of_given thenBody true hall
      fun k hk => hgiven k (List.mem_append_left _ hk)
    obtain ⟨h₂, hr₂⟩ := bodyAll_of_given elseBody true h₁
      fun k hk => hgiven k (List.mem_append_right _ hk)
    refine ⟨h₂, fun name kind h => ?_⟩
    have h : Effect.read name kind ∈ test.effects t kinds ∨
        Effect.read name kind ∈ bodyEffects t true kinds thenBody ∨
        Effect.read name kind ∈ bodyEffects t true (bodyRetype kinds thenBody) elseBody := by
      simpa [effects, not_mem_joining] using h
    rcases h with h | h | h
    · exact hall name kind (test.known_of_read h)
    · exact hr₁ name kind h
    · exact hr₂ name kind h
  | .ret values _, conditional, kinds, hall, hgiven =>
    ⟨hall, fun name kind h => hall name kind (Expr.argsKnown_of_read values h)⟩
  | .call receiver member args _, conditional, kinds, hall, hgiven =>
    ⟨hall, fun name kind h => hall name kind (Expr.known_of_read _ h)⟩

theorem bodyAll_of_given : ∀ (body : List Stmt) (conditional : Bool) {kinds : Kinds},
    kinds.All P → (∀ k ∈ bodyGiven kinds body, k.standing = .value → P k) →
      (bodyRetype kinds body).All P ∧
        ∀ name kind, Effect.read name kind ∈ bodyEffects t conditional kinds body → P kind
  | [], _, _, hall, _ => ⟨hall, fun _ _ h => by simp [bodyEffects] at h⟩
  | s :: rest, conditional, kinds, hall, hgiven => by
    obtain ⟨h₁, hr₁⟩ := all_of_given s conditional hall
      fun k hk => hgiven k (List.mem_append_left _ hk)
    obtain ⟨h₂, hr₂⟩ := bodyAll_of_given rest conditional h₁
      fun k hk => hgiven k (List.mem_append_right _ hk)
    refine ⟨h₂, fun name kind h => ?_⟩
    rw [bodyEffects] at h
    exact (List.mem_append.mp h).elim (hr₁ name kind) (hr₂ name kind)

end

end Stmt

namespace Program

/-- What is known of the names at the beginning of a method: global variables and then parameters have
their declared types. -/
def kinds (p : Program) (m : Method) : Kinds :=
  Kinds.declareAll .value (m.params.map fun q => (q.name.text, q.type))
    (Kinds.declareAll .variable (p.globals.map fun d => (d.name.text, d.type)) fun _ => none)

/-- The effects for a program. -/
def effects (p : Program) (t : Builtins) : List Effect :=
  p.entry?.elim [] fun m => Stmt.bodyEffects t false (p.kinds m) m.body

/-- Do initial and assigned values have the declared types of their names? -/
def agrees (p : Program) : Bool :=
  p.entry?.all fun m => (Stmt.bodyGiven (p.kinds m) m.body).all Kind.agrees

/-- A global variable is read with its declared type, and so is every name if values have the declared
types of their names. -/
theorem declared_of_seen {p : Program} {m : Method} {t : Builtins} (hm : p.entry? = some m)
    (ha : (p.kinds m).Agree) {known : String × Kind} (hk : known ∈ Effect.seen (p.effects t))
    (h : known.2.standing = .variable ∨ p.agrees = true) :
    known.2.declared = some known.2.type := by
  rw [effects, hm, Option.elim_some] at hk
  have hread := Effect.mem_seen hk
  have hagrees : known.2.agrees = true := by
    rcases h with h | h
    · -- no declaration or assignment in the body gives a name a global variable
      have hall := Stmt.bodyAll_of_given (t := t) m.body false
        (P := fun k => k.standing = .variable → k.agrees = true) (fun name k hk _ => ha name k hk)
        (fun k _ hvalue hvariable => by rw [hvalue] at hvariable; cases hvariable)
      exact hall.2 _ _ hread h
    · rw [agrees, hm, Option.all_some, List.all_eq_true] at h
      exact (Stmt.bodyAll_of_given m.body false ha fun k hk _ => h k hk).2 _ _ hread
  rw [Kind.agrees, beq_iff_eq] at hagrees
  exact hagrees

end Program

end ScriptGraph
