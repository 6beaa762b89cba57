import ScriptGraph.Lowering.Overflow
import ScriptGraph.Proofs.Lowering.Growth
import ScriptGraph.Proofs.Lowering.Literals

/-!
# Other ids

Lowering takes ids from a counter and never looks at them, nor at the value of a number. So a program
whose numbers are others, lowered with other ids, has the same graph up to these ids and the values of
its literals, if the other ids are counted up too. The endpoint is no id of the counter and stays where
it is.

* `Renaming` — a change of ids that lowering does not notice while it covers the counter;
* `Graph.blank` — a graph whose literals all hold zero;
* `Lowering.Commutes` — a step of building commutes with both;
* `Program.lower_blank` — hence so does lowering.
-/

namespace ScriptGraph

open Lowering

/-! ## Renaming of ids -/

/-- A change of ids that follows a counter. -/
structure Renaming where
  /-- the new id -/
  ref : Ref → Ref
  /-- may the counter be there? -/
  covers : Ref → Prop
  /-- with two numbers, all between them are covered -/
  between : ∀ {low r high : Ref}, covers low → covers high → low ≤ r → r ≤ high → covers r
  /-- the endpoint, which also marks nodes that belong to no variable, is not numbered -/
  endpoint : ref Ref.endpoint = Ref.endpoint
  /-- the next id becomes the next id -/
  next : ∀ {r : Ref}, covers r → covers (r + 1) → ref (r + 1) = ref r + 1

/-- All ids stay as they are. -/
def Renaming.same : Renaming where
  ref := id
  covers _ := True
  between _ _ _ _ := trivial
  endpoint := rfl
  next _ _ := rfl

/-- The dictionary of the same names with other values. -/
def Dictionary.map {α β : Type} (f : α → β) (d : Dictionary α) : Dictionary β :=
  ⟨d.entries.map fun e => (e.1, f e.2), by simpa [Function.comp_def] using d.distinct⟩

section

variable (f : Ref → Ref)

def Wire.rename (w : Wire) : Wire :=
  { w with ref := f w.ref }

def Binding.rename : Binding → Binding
  | .wire w => .wire (w.rename f)
  | .globalVar type ref => .globalVar type (f ref)
  | .parameter type pin => .parameter type pin

end

/-- A literal that holds another value. -/
def Literal.withValue (l : Literal) (value : Binary32) : Literal :=
  { l with value := value }

/-- A graph whose literals all hold zero. -/
def Graph.blank (g : Graph) : Graph :=
  { g with literals := g.literals.map fun l => l.withValue (.ofInt 0) }

/-! ## Steps of building -/

section

variable (f : Ref → Ref)

/-- A report about other ids, in which numbers are zero. -/
def Event.image : Event → Event
  | .globalDeclared name ref => .globalDeclared name (f ref)
  | .literalMade ref _ => .literalMade (f ref) (.ofInt 0)
  | .nodeMade ref opcode => .nodeMade (f ref) opcode
  | .methodDone name last => .methodDone name (f last)
  | event => event

/-- A builder with other ids, in which numbers are zero. The graph in the making has no counter
yet. -/
def Builder.image (b : Builder) : Builder where
  graph := { (b.graph.rename f).blank with counter := b.graph.counter }
  scope := b.scope.map (Binding.rename f)
  next := f b.next
  events := b.events.map (Event.image f)

end

namespace Dictionary

variable {α β : Type} (f : α → β)

theorem get?_map (d : Dictionary α) (name : String) :
    (d.map f).get? name = (d.get? name).map f := by
  simp only [map, get?]
  induction d.entries with
  | nil => rfl
  | cons e rest ih =>
    rw [List.map_cons, List.lookup_cons, List.lookup_cons]
    split <;> simp [ih]

theorem map_insert (d : Dictionary α) (name : String) (value : α) :
    (d.insert name value).map f = (d.map f).insert name (f value) := by
  have hput : ∀ l : List (String × α),
      (put name value l).map (fun e => (e.1, f e.2)) =
        put name (f value) (l.map fun e => (e.1, f e.2)) := by
    intro l
    induction l with
    | nil => rfl
    | cons e rest ih =>
      by_cases he : e.1 = name
      · simp [put, he]
      · simp [put, he, ih]
  simp only [map, insert, hput]

end Dictionary

/-- Lowering of a program up to its counter. -/
def Lowering.parts (t : Builtins) (p : Program) : Lowering Unit := do
  declareGlobals p.globals
  p.entry?.elim (pure ()) (method t)

/-- The rest of it: the graph gets its counter and is reported. -/
def Lowering.close : Lowering Graph := do
  modify fun b => { b with graph := { b.graph with counter := b.next } }
  let g := (← get).graph
  report (.lowered g.nodes.length g.literals.length g.connections.length)
  return g

theorem Lowering.program_eq (t : Builtins) (p : Program) :
    program t p = parts t p >>= fun _ => close := by
  rw [program, parts, bind_assoc]
  rcases p.entry? with _ | m <;> rfl

/-- The outcome of a step in which ids are others and numbers are zero. -/
def Renaming.outcome (ρ : Renaming) {α β : Type} (f : α → β) :
    EStateM.Result LoweringError Builder α → EStateM.Result LoweringError Builder β
  | .ok a b => .ok (f a) (b.image ρ.ref)
  | .error e b => .error e (b.image ρ.ref)

/-- From every builder, as long as the counter is covered, `y` does on the image of the builder what
`x` does on it: both are refused for the same reason, or the result and the builder of `y` are the
images of those of `x`. -/
def Lowering.Commutes (ρ : Renaming) {α β : Type} (f : α → β) (x : Lowering α) (y : Lowering β) :
    Prop :=
  ∀ b : Builder, b.next ≤ (x.leaves b).next ∧
    (ρ.covers b.next → ρ.covers (x.leaves b).next → y (b.image ρ.ref) = ρ.outcome f (x b))

namespace Lowering.Commutes

/-! A step that is made of others commutes because they do, so each proof follows the text of its
step. -/

variable {ρ : Renaming} {α α' β β' : Type} {f : α → α'} {g : β → β'}

theorem pure (a : α) : Commutes ρ f (pure a) (pure (f a)) :=
  fun _ => ⟨Int.le_refl _, fun _ _ => rfl⟩

theorem pure_of_eq {a : α} {a' : α'} (h : f a = a') :
    Commutes ρ f (Pure.pure a) (Pure.pure a') :=
  h ▸ pure a

theorem throw (e : LoweringError) : Commutes ρ f (throw e) (throw e) :=
  fun _ => ⟨Int.le_refl _, fun _ _ => rfl⟩

theorem bind {x : Lowering α} {y : Lowering α'} {k : α → Lowering β} {k' : α' → Lowering β'}
    (hx : Commutes ρ f x y) (hk : ∀ a, Commutes ρ g (k a) (k' (f a))) :
    Commutes ρ g (x >>= k) (y >>= k') := by
  intro b
  obtain ⟨hle, himage⟩ := hx b
  simp only [leaves, Bind.bind, EStateM.bind] at hle himage ⊢
  rcases hxb : x b with ⟨a, b₁⟩ | ⟨e, b₁⟩ <;> rw [hxb] at hle himage
  · obtain ⟨hle', himage'⟩ := hk a b₁
    refine ⟨Int.le_trans hle hle', fun h₀ h₂ => ?_⟩
    -- in between the counter is covered too
    have h₁ : ρ.covers b₁.next := ρ.between h₀ h₂ hle hle'
    rw [himage h₀ h₁]
    exact himage' h₁ h₂
  · refine ⟨hle, fun h₀ h₁ => ?_⟩
    rw [himage h₀ h₁]
    rfl

theorem discard {x : Lowering α} {y : Lowering α'} (h : Commutes ρ f x y) :
    Commutes ρ id (discard x : Lowering PUnit) (discard y) :=
  h.bind fun _ => pure PUnit.unit

/-- A step that changes the builder alone. -/
theorem modify {h h' : Builder → Builder} (hi : ∀ b, (h b).image ρ.ref = h' (b.image ρ.ref))
    (hn : ∀ b, (h b).next = b.next) :
    Commutes ρ id (modify h : Lowering PUnit) (modify h') := by
  intro b
  refine ⟨(hn b).symm ▸ Int.le_refl _, fun _ _ => ?_⟩
  exact congrArg (EStateM.Result.ok PUnit.unit) (hi b).symm

theorem freshRef : Commutes ρ ρ.ref freshRef freshRef := by
  intro b
  refine ⟨Int.le_add_one (Int.le_refl _), fun h₀ h₁ => ?_⟩
  show EStateM.Result.ok _ { b.image ρ.ref with next := ρ.ref b.next + 1 } = _
  rw [← ρ.next h₀ h₁]
  rfl

theorem binding? (name : String) :
    Commutes ρ (Option.map (Binding.rename ρ.ref)) (binding? name) (binding? name) := by
  intro b
  refine ⟨Int.le_refl _, fun _ _ => ?_⟩
  show EStateM.Result.ok ((b.scope.map (Binding.rename ρ.ref)).get? name) _ = _
  rw [Dictionary.get?_map]
  rfl

theorem bindName (name : String) (binding : Binding) :
    Commutes ρ id (bindName name binding) (bindName name (binding.rename ρ.ref)) := by
  apply modify
  · intro b
    simp only [Builder.image, Dictionary.map_insert]
  · intro b
    rfl

theorem report (event : Event) : Commutes ρ id (report event) (report (event.image ρ.ref)) := by
  apply modify
  · intro b
    simp only [Builder.image, List.map_append, List.map_singleton]
  · intro b
    rfl

/-- A step that changes the graph alone. -/
theorem onGraph {h h' : Graph → Graph}
    (hi : ∀ g : Graph, { ((h g).rename ρ.ref).blank with counter := (h g).counter } =
      h' { (g.rename ρ.ref).blank with counter := g.counter }) :
    Commutes ρ id (onGraph h) (onGraph h') := by
  apply modify
  · intro b
    simp only [Builder.image, hi]
  · intro b
    rfl

theorem addNode (n : Node) : Commutes ρ id (addNode n) (addNode (n.rename ρ.ref)) := by
  refine (report (.nodeMade n.ref n.opcode)).bind fun _ => onGraph fun g => ?_
  simp [Graph.rename, Graph.blank]

/-- A node that belongs to no variable. -/
theorem addOperation (opcode : Opcode) (ref : Ref) (place : Place) :
    Commutes ρ id (Lowering.addNode ⟨opcode, ref, place, Ref.unlinked⟩)
      (Lowering.addNode ⟨opcode, ρ.ref ref, place, Ref.unlinked⟩) := by
  have h := addNode (ρ := ρ) ⟨opcode, ref, place, Ref.unlinked⟩
  rwa [Node.rename, show ρ.ref Ref.unlinked = Ref.unlinked from ρ.endpoint] at h

theorem addLiteral (l : Literal) :
    Commutes ρ id (addLiteral l)
      (addLiteral ((l.rename ρ.ref).withValue (.ofInt 0))) := by
  refine onGraph fun g => ?_
  simp [Graph.rename, Graph.blank]

theorem addConnection (c : Connection) :
    Commutes ρ id (addConnection c) (addConnection (c.rename ρ.ref)) := by
  refine onGraph fun g => ?_
  simp [Graph.rename, Graph.blank]

theorem connect (w : Wire) (target : Ref) (pin : Nat) :
    Commutes ρ id (connect w target pin)
      (connect (w.rename ρ.ref) (ρ.ref target) pin) :=
  addConnection (.data w.ref w.pin target pin)

theorem chain (source target : Ref) :
    Commutes ρ id (chain source target) (chain (ρ.ref source) (ρ.ref target)) :=
  addConnection (.execution source target)

/-! ### Nodes -/

theorem unary (opcode : Opcode) (inner : Wire) :
    Commutes ρ (Wire.rename ρ.ref) (unary opcode inner)
      (unary opcode (inner.rename ρ.ref)) := by
  refine freshRef.bind fun ref => ?_
  refine (addOperation opcode ref (placeFor inner.isPublic)).bind fun _ => ?_
  exact (connect inner ref 0).bind fun _ => pure _

theorem binary (t : Builtins) (op : BinaryOp) (left right : Wire) :
    Commutes ρ (Wire.rename ρ.ref) (binary t op left right)
      (binary t op (left.rename ρ.ref) (right.rename ρ.ref)) := by
  simp only [Lowering.binary, Wire.rename]
  rcases t.operator? op.symbol (isVectorOp left.type right.type) with _ | opcode
  · exact throw _
  · refine freshRef.bind fun ref => ?_
    refine (addOperation opcode ref (placeFor (left.isPublic || right.isPublic))).bind fun _ => ?_
    exact (connect left ref 0).bind fun _ => (connect right ref 1).bind fun _ => pure _

theorem select (condition new previous : Wire) :
    Commutes ρ (Wire.rename ρ.ref) (select condition new previous)
      (select (condition.rename ρ.ref) (new.rename ρ.ref)
        (previous.rename ρ.ref)) := by
  refine freshRef.bind fun ref => ?_
  refine (addOperation Opcode.select ref (placeFor new.isPublic)).bind fun _ => ?_
  refine (connect condition ref 0).bind fun _ => (connect new ref 1).bind fun _ => ?_
  exact (connect previous ref 2).bind fun _ => pure _

theorem conjunction (outer : Option Wire) (inner : Wire) :
    Commutes ρ (Wire.rename ρ.ref) (conjunction outer inner)
      (conjunction (outer.map (Wire.rename ρ.ref)) (inner.rename ρ.ref)) := by
  cases outer with
  | none => exact pure inner
  | some outer =>
    refine freshRef.bind fun ref => ?_
    refine (addOperation Opcode.and ref Place.origin).bind fun _ => ?_
    exact (connect outer ref 0).bind fun _ => (connect inner ref 1).bind fun _ => pure _

theorem currentValue (binding : Binding) :
    Commutes ρ (Wire.rename ρ.ref) (currentValue binding)
      (currentValue (binding.rename ρ.ref)) := by
  cases binding with
  | wire w => exact pure w
  | parameter type pin =>
    refine pure_of_eq ?_
    rw [Wire.rename, Wire.atPin, ρ.endpoint]
  | globalVar type ref =>
    refine freshRef.bind fun read => ?_
    exact (addNode ⟨Opcode.readGlobal, read, Place.origin, ref⟩).bind fun _ => pure _

/-! ### Expressions -/

theorem component (receiver member : Name) (binding : Binding) :
    Commutes ρ (Wire.rename ρ.ref) (component receiver member binding)
      (component receiver member (binding.rename ρ.ref)) := by
  simp only [Lowering.component]
  rcases componentPin? member.text with _ | pin
  · exact throw _
  · refine (currentValue binding).bind fun value => freshRef.bind fun ref => ?_
    refine (addOperation (if value.type = .vector3 then Opcode.splitVector3
      else Opcode.splitVector2) ref (placeFor value.isPublic)).bind fun _ => ?_
    exact (connect value ref 0).bind fun _ => pure _

theorem namedValue (t : Builtins) (name : Name) :
    Commutes ρ (Wire.rename ρ.ref) (namedValue t name) (namedValue t name) := by
  refine (binding? name.text).bind fun found => ?_
  cases found with
  | some binding => exact currentValue binding
  | none =>
    rcases t.constant? name.text with _ | opcode
    · exact throw _
    · refine freshRef.bind fun ref => ?_
      exact (addOperation opcode ref Place.origin).bind fun _ => pure _

mutual

theorem expr (t : Builtins) :
    ∀ e : Expr, Commutes ρ (Wire.rename ρ.ref) (expr t e) (expr t (e.map .blank))
  | .number value => by
    rw [Expr.map, Change.blank_number]
    refine freshRef.bind fun ref => (addLiteral (.ofNumber ref value)).bind fun _ => ?_
    exact (report (.literalMade ref value)).bind fun _ => pure _
  | .var name => namedValue t name
  | .neg inner => (expr t inner).bind fun w => unary Opcode.negate w
  | .not inner => (expr t inner).bind fun w => unary Opcode.not w
  | .binary op left right =>
    (expr t left).bind fun l => (expr t right).bind fun r => binary t op l r
  | .call receiver member args => by
    rw [Expr.map, Change.blank_name, Change.blank_name]
    refine (binding? receiver.text).bind fun found => ?_
    cases found with
    | some binding => exact component receiver member binding
    | none =>
      rcases t.member? receiver.text member.text with _ | opcode
      · exact throw _
      · refine freshRef.bind fun ref => (arguments t ref 0 args).bind fun readsPublic => ?_
        exact (addOperation opcode ref (placeFor readsPublic)).bind fun _ => pure _
  | .construct type args => by
    simp only [Lowering.expr, Expr.map, Change.blank_name]
    rcases constructor? type.text with _ | ⟨opcode, valueType⟩
    · exact throw _
    · refine freshRef.bind fun ref => (arguments t ref 0 args).bind fun readsPublic => ?_
      exact (addOperation opcode ref (placeFor readsPublic)).bind fun _ => pure _

theorem arguments (t : Builtins) (target : Ref) (pin : Nat) :
    ∀ args : List Expr, Commutes ρ id (arguments t target pin args)
      (arguments t (ρ.ref target) pin (Expr.mapArgs .blank args))
  | [] => pure false
  | arg :: args => by
    refine (expr t arg).bind fun w => (connect w target pin).bind fun _ => ?_
    exact (arguments t target (pin + 1) args).bind fun others => pure _

end

/-! ### Statements -/

theorem declaredType (type : String) (name : Name) :
    Commutes ρ id (declaredType type name) (declaredType type name) := by
  rw [Lowering.declaredType]
  rcases ValueType.ofName? type with _ | found
  · exact throw _
  · exact pure found

theorem declare (t : Builtins) (c : Declaration) :
    Commutes ρ id (declare t c) (declare t (c.map .blank)) := by
  rcases c with ⟨type, name, init, _ | _⟩
  · cases init with
    | none => exact throw _
    | some init => exact (expr t init).bind fun w => bindName name.text (.wire w)
  · cases init with
    | none =>
      refine (declaredType type name).bind fun found => freshRef.bind fun ref => ?_
      refine (addLiteral ⟨ref, name.text, Place.publicValue, .ofInt 0⟩).bind fun _ => ?_
      exact bindName name.text (.wire (.ofPublic found ref))
    | some init => exact throw _

theorem assignedValue (t : Builtins) (binding : Binding) (op : AssignOp) (value : Expr) :
    Commutes ρ
      (Prod.map (Wire.rename ρ.ref) (Option.map (Wire.rename ρ.ref)))
      (assignedValue t binding op value)
      (assignedValue t (binding.rename ρ.ref) op (value.map .blank)) := by
  simp only [Lowering.assignedValue]
  rcases op.binaryOp? with _ | bop
  · exact (expr t value).bind fun new => pure (new, none)
  · refine (currentValue binding).bind fun current => (expr t value).bind fun operand => ?_
    exact (binary t bop current operand).bind fun new => pure (new, some current)

theorem gated (condition : Option Wire) (binding : Binding) (new : Wire)
    (previous : Option Wire) :
    Commutes ρ (Wire.rename ρ.ref) (gated condition binding new previous)
      (gated (condition.map (Wire.rename ρ.ref)) (binding.rename ρ.ref)
        (new.rename ρ.ref) (previous.map (Wire.rename ρ.ref))) := by
  cases condition with
  | none => exact pure new
  | some condition =>
    cases previous with
    | some previous => exact select condition new previous
    | none => exact (currentValue binding).bind fun previous => select condition new previous

theorem store (name : String) (binding : Binding) (value : Wire) (last : Ref) :
    Commutes ρ ρ.ref (store name binding value last)
      (store name (binding.rename ρ.ref) (value.rename ρ.ref) (ρ.ref last)) := by
  cases binding with
  | wire w => exact (bindName name (.wire value)).bind fun _ => pure last
  | parameter type pin => exact (bindName name (.wire value)).bind fun _ => pure last
  | globalVar type ref =>
    refine freshRef.bind fun write => ?_
    refine (addNode ⟨Opcode.writeGlobal, write, Place.globalWrite, ref⟩).bind fun _ => ?_
    exact (connect value write 0).bind fun _ => (chain last write).bind fun _ => pure write

theorem assign (t : Builtins) (target : Name) (op : AssignOp) (value : Expr)
    (condition : Option Wire) (last : Ref) :
    Commutes ρ ρ.ref (assign t target op value condition last)
      (assign t target op (value.map .blank) (condition.map (Wire.rename ρ.ref))
        (ρ.ref last)) := by
  refine (binding? target.text).bind fun found => ?_
  cases found with
  | none => exact throw _
  | some binding =>
    refine (assignedValue t binding op value).bind fun assigned => ?_
    refine (gated condition binding assigned.1 assigned.2).bind fun kept => ?_
    exact store target.text binding kept last

theorem ensureOutput (index : Nat) :
    Commutes ρ id (ensureOutput index) (ensureOutput index) := by
  refine onGraph fun g => ?_
  by_cases h : g.outputs.length ≤ index <;> simp [Graph.rename, Graph.blank, h]

theorem outputs (t : Builtins) (index : Nat) (values : List Expr) :
    Commutes ρ id (outputs t index values) (outputs t index (Expr.mapArgs .blank values)) := by
  induction values generalizing index with
  | nil => exact pure ()
  | cons value values ih =>
    refine (expr t value).bind fun w => (ensureOutput index).bind fun _ => ?_
    have hconnect := connect (ρ := ρ) w Ref.endpoint index
    rw [ρ.endpoint] at hconnect
    exact hconnect.bind fun _ => ih (index + 1)

mutual

theorem stmt (t : Builtins) (condition : Option Wire) (last : Ref) :
    ∀ s : Stmt, Commutes ρ ρ.ref (stmt t condition last s)
      (stmt t (condition.map (Wire.rename ρ.ref)) (ρ.ref last) (s.map .blank))
  | .declare c _ => (declare t c).bind fun _ => pure last
  | .assign target op value _ => assign t target op value condition last
  | .branch test thenBody none _ => by
    refine (expr t test).bind fun w => (conjunction condition w).bind fun whenTrue => ?_
    exact (body t (some whenTrue) last thenBody).bind fun last₁ => pure last₁
  | .branch test thenBody (some elseBody) _ => by
    refine (expr t test).bind fun w => (conjunction condition w).bind fun whenTrue => ?_
    refine (body t (some whenTrue) last thenBody).bind fun last₁ => ?_
    refine (unary Opcode.not w).bind fun negated => ?_
    refine (conjunction condition negated).bind fun whenFalse => ?_
    exact body t (some whenFalse) last₁ elseBody
  | .ret values _ => by
    refine (outputs t 0 values).bind fun _ => ?_
    have hexit := chain (ρ := ρ) last Ref.endpoint
    rw [ρ.endpoint] at hexit
    exact hexit.bind fun _ => pure_of_eq ρ.endpoint
  | .call receiver member args _ => by
    exact (discard (expr t (.call receiver member args))).bind fun _ => pure last

theorem body (t : Builtins) (condition : Option Wire) (last : Ref) :
    ∀ ss : List Stmt, Commutes ρ ρ.ref (body t condition last ss)
      (body t (condition.map (Wire.rename ρ.ref)) (ρ.ref last) (Stmt.mapBody .blank ss))
  | [] => pure last
  | s :: rest => by
    refine (stmt t condition last s).bind fun last₁ => ?_
    have hrest := body t condition last₁ rest
    -- a statement and its blank one are refused behind a return alike
    cases s with
    | ret values span =>
      cases rest with
      | nil => exact hrest
      | cons next rest =>
        simp only [Stmt.map, Stmt.mapBody, Stmt.span_map]
        exact throw _
    | declare c span => exact hrest
    | assign target op value span => exact hrest
    | branch test thenBody elseBody span => cases elseBody <;> exact hrest
    | call receiver member args span => exact hrest

end

/-! ### Programs -/

theorem declareGlobal (c : Declaration) :
    Commutes ρ id (declareGlobal c) (declareGlobal (c.map .blank)) := by
  refine (declaredType c.type c.name).bind fun type => ?_
  rcases hd : type.defaultText? with _ | default
  · simp only [id, hd]
    exact throw _
  · simp only [id, hd]
    refine freshRef.bind fun ref => bind (f := id) (onGraph fun g => ?_) fun _ => ?_
    · simp [Graph.rename, Graph.blank, Variable.rename, Declaration.map]
    · refine (bindName c.name.text (.globalVar type ref)).bind fun _ => ?_
      exact report (.globalDeclared c.name.text ref)

theorem declareGlobals (ds : List Declaration) :
    Commutes ρ id (declareGlobals ds) (declareGlobals (ds.map (Declaration.map .blank))) := by
  induction ds with
  | nil => exact pure ()
  | cons c ds ih => exact (declareGlobal c).bind fun _ => ih

theorem parameters (pin : Nat) (ps : List Parameter) :
    Commutes ρ id (parameters pin ps) (parameters pin (ps.map (Parameter.map .blank))) := by
  induction ps generalizing pin with
  | nil => exact pure ()
  | cons p ps ih =>
    refine (declaredType p.type p.name).bind fun type => ?_
    refine bind (f := id) (onGraph fun g => rfl) fun _ => ?_
    exact (bindName p.name.text (.parameter type pin)).bind fun _ => ih (pin + 1)

theorem method (t : Builtins) (m : Method) :
    Commutes ρ id (method t m) (method t (m.map .blank)) := by
  refine (parameters 0 m.params).bind fun _ => ?_
  have hbody := body (ρ := ρ) t none Ref.endpoint m.body
  rw [ρ.endpoint] at hbody
  refine hbody.bind fun last => ?_
  exact report (.methodDone m.name.text last)

theorem parts (t : Builtins) (p : Program) : Commutes ρ id (parts t p) (parts t p.blank) := by
  rw [Lowering.parts, Lowering.parts, p.globals_map, p.entry?_map fun _ => rfl]
  refine (declareGlobals p.globals).bind fun _ => ?_
  rcases p.entry? with _ | m
  · exact pure ()
  · exact method t m

end Lowering.Commutes

/-! ## Programs -/

/-- The builder at the end of a program decides its graph. -/
theorem Program.lower_eq (p : Program) (t : Builtins) (first : Ref) :
    p.lower t first =
      match parts t p (Builder.start first) with
      | .ok _ b => .ok { b.graph with counter := b.next }
      | .error e _ => .error e := by
  rw [Program.lower, program_eq]
  simp only [bind, EStateM.bind]
  rcases parts t p (Builder.start first) with ⟨_, b⟩ | ⟨e, b⟩ <;> rfl

/-- So it decides the next id. -/
theorem Program.nextRef_eq (p : Program) (t : Builtins) (first : Ref) :
    p.nextRef t first = ((parts t p).leaves (Builder.start first)).next := by
  rw [nextRef, program_eq, leaves]
  simp only [bind, EStateM.bind]
  rcases parts t p (Builder.start first) with ⟨_, b⟩ | ⟨e, b⟩ <;> rfl

/-- The counter goes up. -/
theorem Program.first_le_nextRef (p : Program) (t : Builtins) (first : Ref) :
    first ≤ p.nextRef t first := by
  rw [p.nextRef_eq]
  exact (Commutes.parts (ρ := Renaming.same) t p (Builder.start first)).1

/-- Lowering commutes with a renaming that follows the counter, and with a change of the numbers. -/
theorem Program.lower_blank (p : Program) (t : Builtins) (ρ : Renaming) {first : Ref}
    (h : ρ.covers first) (hn : ρ.covers (p.nextRef t first)) :
    p.blank.lower t (ρ.ref first) =
      (p.lower t first).map fun g => (g.rename ρ.ref).blank := by
  have hstart : (Builder.start first).image ρ.ref = Builder.start (ρ.ref first) := rfl
  rw [p.nextRef_eq] at hn
  have hrun := (Commutes.parts t p (Builder.start first)).2 h hn
  rw [hstart] at hrun
  rw [p.lower_eq, p.blank.lower_eq, hrun]
  rcases parts t p (Builder.start first) with ⟨_, b⟩ | ⟨e, b⟩ <;> rfl

end ScriptGraph
