import ScriptGraph.Proofs.Lowering.Arity
import ScriptGraph.Proofs.Lowering.Reads

/-!
# Gates

An assignment inside of choices is lowered to a node that chooses between the new value and the
previous one. What it chooses by is the *condition* of the branch, which is made of the tests of the
choices around it: conjunctions are added one for each level, a negation for each second body, and
all statements of a branch share them.

* `Assignment`, `Program.assignments` — the assignments of a program, with the choices around them;
* `Gate`, `Program.gates` — their lowerings, found by lowering up to them;
* `Graph.Computes` — a valuation in which conjunctions and negations are what they should be;
* `Builder.Guarded` — at a point of a lowering, the condition is true just if all tests around it
  have the outcomes that lead there;
* `lower_gates` — the nodes of an assignment, what they are connected to, and its condition.
-/

namespace ScriptGraph

open Lowering Relation

/-! ## Assignments of a program -/

/-- A choice around a statement. -/
structure Choice where
  /-- the test -/
  test : Expr
  /-- the outcome of the test that leads to the statement -/
  outcome : Bool

/-- An assignment in a program. -/
structure Assignment where
  /-- the target -/
  target : Name
  /-- the operator -/
  op : AssignOp
  /-- the value -/
  value : Expr
  /-- the choices around it, the innermost first -/
  choices : List Choice

namespace Stmt

mutual

/-- The assignments of a statement inside of some choices. -/
def assignments (choices : List Choice) : Stmt → List Assignment
  | .assign target op value _ => [⟨target, op, value, choices⟩]
  | .branch test thenBody none _ => bodyAssignments (⟨test, true⟩ :: choices) thenBody
  | .branch test thenBody (some elseBody) _ =>
    bodyAssignments (⟨test, true⟩ :: choices) thenBody ++
      bodyAssignments (⟨test, false⟩ :: choices) elseBody
  | _ => []

/-- The assignments of statements one after another. -/
def bodyAssignments (choices : List Choice) : List Stmt → List Assignment
  | [] => []
  | s :: rest => s.assignments choices ++ bodyAssignments choices rest

end

end Stmt

/-- The assignments of a program, in the order of the text. -/
def Program.assignments (p : Program) : List Assignment :=
  p.entry?.elim [] fun m => Stmt.bodyAssignments [] m.body

/-! ## Their lowerings -/

/-- The test of a choice, while a program is lowered. -/
structure Test where
  /-- the wire of the test -/
  wire : Wire
  /-- the outcome that leads on -/
  outcome : Bool
  /-- the builder in front of the test -/
  before : Builder
  /-- the builder behind it, and in front of both bodies -/
  after : Builder

/-- An assignment, while a program is lowered. -/
structure Gate where
  /-- the condition of the assignment, if it is inside of a choice -/
  condition : Option Wire
  /-- the tests around it, the innermost first -/
  tests : List Test
  /-- what the target stands for -/
  binding : Binding
  /-- the new value -/
  new : Wire
  /-- the value of the target before, which takes part under a condition -/
  previous : Wire
  /-- the value that is stored -/
  kept : Wire
  /-- the builder in front of the assignment -/
  before : Builder
  /-- the builder behind it -/
  after : Builder

/-- The nodes that an assignment adds. -/
def Gate.nodes (q : Gate) : List Node :=
  q.after.graph.nodes.drop q.before.graph.nodes.length

namespace Stmt

mutual

/-- The assignments of a statement that is lowered from a builder on, in the order of `assignments`.
Both bodies of a choice are behind one test. -/
def gates (t : Builtins) (condition : Option Wire) (tests : List Test) (last : Ref) (b : Builder) :
    Stmt → List Gate
  | .assign target op value _ =>
    (b.scope.get? target.text).elim [] fun binding =>
      behind (assignedValue t binding op value) b fun (new, read) b₁ =>
        behind (gated condition binding new read) b₁ fun kept b₂ =>
          behind (store target.text binding kept last) b₂ fun _ b₃ =>
            [⟨condition, tests, binding, new, b₁.previousWire binding read, kept, b, b₃⟩]
  | .branch test thenBody none _ =>
    behind (expr t test) b fun wire b₁ =>
      behind (conjunction condition wire) b₁ fun whenTrue b₂ =>
        bodyGates t (some whenTrue) (⟨wire, true, b, b₁⟩ :: tests) last b₂ thenBody
  | .branch test thenBody (some elseBody) _ =>
    behind (expr t test) b fun wire b₁ =>
      behind (conjunction condition wire) b₁ fun whenTrue b₂ =>
        bodyGates t (some whenTrue) (⟨wire, true, b, b₁⟩ :: tests) last b₂ thenBody ++
          behind (body t (some whenTrue) last thenBody) b₂ fun last₁ b₃ =>
            behind (unary Opcode.not wire) b₃ fun negated b₄ =>
              behind (conjunction condition negated) b₄ fun whenFalse b₅ =>
                bodyGates t (some whenFalse) (⟨wire, false, b, b₁⟩ :: tests) last₁ b₅ elseBody
  | _ => []

/-- The assignments of statements one after another. -/
def bodyGates (t : Builtins) (condition : Option Wire) (tests : List Test) (last : Ref)
    (b : Builder) : List Stmt → List Gate
  | [] => []
  | s :: rest =>
    s.gates t condition tests last b ++ behind (stmt t condition last s) b fun last₁ b₁ =>
      bodyGates t condition tests last₁ b₁ rest

end

end Stmt

/-- The assignments of a program that is lowered with ids from `first` on. -/
def Program.gates (p : Program) (t : Builtins) (first : Ref) : List Gate :=
  p.entry?.elim [] fun m =>
    behind (do declareGlobals p.globals; parameters 0 m.params) (Builder.start first) fun _ b =>
      Stmt.bodyGates t none [] Ref.endpoint b m.body

/-! ## Valuations -/

/-- A truth value for every output. -/
abbrev Valuation := Ref → Nat → Bool

/-- The truth value of a wire. -/
def Valuation.at (ν : Valuation) (w : Wire) : Bool :=
  ν w.ref w.pin

/-- In a valuation, the nodes for conjunctions yield the conjunctions of their inputs and those for
negations the negations of theirs. -/
def Graph.Computes (g : Graph) (ν : Valuation) : Prop :=
  ∀ n ∈ g.nodes,
    (n.opcode = Opcode.and →
      ν n.ref 0 = (g.dataInputs n.ref).all fun c => ν c.source c.sourcePin) ∧
    (n.opcode = Opcode.not → ∀ c ∈ g.dataInputs n.ref, ν n.ref 0 = !ν c.source c.sourcePin)

/-! ## What is to be shown -/

/-- The test of a choice that lies before a point of the lowering. -/
structure Test.Observed (t : Builtins) (b : Builder) (q : Test) (choice : Choice) : Prop where
  outcome : q.outcome = choice.outcome
  lowered : expr t choice.test q.before = .ok q.wire q.after
  earlier : q.after.graph.nodes <+: b.graph.nodes

/-- A wire carries the value of what a name stands for; a variable is read by one of some nodes. -/
def Binding.Yields (nodes : List Node) (w : Wire) : Binding → Prop
  | .wire v => w = v
  | .parameter type pin => w = .atPin type Ref.endpoint pin
  | .globalVar type ref =>
    ∃ n ∈ nodes, n.opcode = Opcode.readGlobal ∧ n.linked = ref ∧ w = .ofRef type n.ref

/-- A wire is stored: it leads to one of some nodes, which writes the variable, and to no other
input of it, or the name stands for it from there on. -/
def Binding.Receives (g : Graph) (nodes : List Node) (b : Builder) (name : String) (w : Wire) :
    Binding → Prop
  | .globalVar _ ref =>
    ∃ n ∈ nodes, n.opcode = Opcode.writeGlobal ∧ n.linked = ref ∧
      g.dataInputs n.ref = [.data w.ref w.pin n.ref 0]
  | _ => b.scope.get? name = some (.wire w)

/-- What a graph shows of an assignment. -/
structure Gate.Observed (t : Builtins) (g : Graph) (q : Gate) (a : Assignment) : Prop where
  /-- the assignment is lowered between the two points -/
  lowered : ∃ last last', assign t a.target a.op a.value q.condition last q.before =
    .ok last' q.after
  inside : q.before.graph.nodes <+: q.after.graph.nodes
  behind : q.after.graph.nodes <+: g.nodes
  binding : q.before.scope.get? a.target.text = some q.binding
  new : ∃ read b, assignedValue t q.binding a.op a.value q.before = .ok (q.new, read) b
  /-- there is a condition just if there is a choice around the assignment -/
  conditional : q.condition.isSome = !a.choices.isEmpty
  /-- and then one node chooses -/
  selects : q.nodes.countP (·.opcode == Opcode.select) = if a.choices.isEmpty then 0 else 1
  /-- its inputs are the condition, the new value and the value of the target, which is read before;
  its output is what is stored, and written behind it -/
  select : ∀ c ∈ q.condition, ∃ pre n post, q.nodes = pre ++ n :: post ∧
    q.binding.Yields pre q.previous ∧ n.opcode = Opcode.select ∧
    g.dataInputs n.ref = [.data c.ref c.pin n.ref 0, .data q.new.ref q.new.pin n.ref 1,
      .data q.previous.ref q.previous.pin n.ref 2] ∧
    q.kept = .ofRef q.new.type n.ref ∧
    q.binding.Receives g post q.after a.target.text q.kept
  /-- without a condition the new value is stored -/
  plain : q.condition = none → q.kept = q.new
  stored : q.binding.Receives g q.nodes q.after a.target.text q.kept
  /-- the tests around the assignment were made before it -/
  tests : List.Forall₂ (Test.Observed t q.before) q.tests a.choices
  /-- the condition is true just if every test has the outcome that leads to the assignment -/
  condition : ∀ ν, g.Computes ν → ∀ c ∈ q.condition,
    (ν.at c = true ↔ ∀ test ∈ q.tests, ν.at test.wire = test.outcome)

/-! ## Roles of an assignment -/

theorem Names.select_notMem_reads (names : Names) (name : String) :
    Role.select ∉ names.reads name := by
  rw [Names.reads]
  rcases names name with _ | _ | _ <;> simp [Standing.reads]

theorem Names.select_notMem_writes (names : Names) (name : String) :
    Role.select ∉ names.writes name := by
  rw [Names.writes]
  rcases names name with _ | _ | _ <;> simp [Standing.writes]

mutual

/-- No expression asks for a choice. -/
theorem Expr.select_notMem_roles (names : Names) : ∀ e : Expr, Role.select ∉ e.roles names
  | .number value => by simp [Expr.roles]
  | .var name => by
    rw [Expr.roles]
    split
    · exact names.select_notMem_reads name.text
    · simp
  | .neg inner => by simpa [Expr.roles] using Expr.select_notMem_roles names inner
  | .not inner => by simpa [Expr.roles] using Expr.select_notMem_roles names inner
  | .binary op left right => by
    simpa [Expr.roles] using
      ⟨Expr.select_notMem_roles names left, Expr.select_notMem_roles names right⟩
  | .call receiver member args => by
    rw [Expr.roles]
    split
    · simpa using names.select_notMem_reads receiver.text
    · simpa using Expr.select_notMem_argsRoles names args
  | .construct type args => by
    simpa [Expr.roles] using Expr.select_notMem_argsRoles names args

theorem Expr.select_notMem_argsRoles (names : Names) :
    ∀ args : List Expr, Role.select ∉ Expr.argsRoles names args
  | [] => by simp [Expr.argsRoles]
  | arg :: args => by
    simpa [Expr.argsRoles] using
      ⟨Expr.select_notMem_roles names arg, Expr.select_notMem_argsRoles names args⟩

end

/-- An assignment asks for a choice just if it stands under a condition. -/
theorem Stmt.count_assignRoles (conditional : Bool) (names : Names) (target : String)
    (op : Option BinaryOp) (value : Expr) :
    (Stmt.assignRoles conditional names target op value).count .select =
      if conditional then 1 else 0 := by
  have hvalue := List.count_eq_zero_of_not_mem (value.select_notMem_roles names)
  have hreads := List.count_eq_zero_of_not_mem (names.select_notMem_reads target)
  have hwrites := List.count_eq_zero_of_not_mem (names.select_notMem_writes target)
  cases op <;> cases conditional <;>
    simp [Stmt.assignRoles, List.count_append, hvalue, hreads, hwrites]

/-- With the standard table, only a choice has its opcode. -/
theorem Role.Fits.opcode_eq_select_iff {role : Role} {opcode : Opcode}
    (h : role.Fits Builtins.standard opcode) (hn : role.IsNamed) :
    opcode = Opcode.select ↔ role = .select := by
  have hown : Opcode.select ∈ Builtins.own := by decide
  have hcall : ∀ {name}, Builtins.isCallable name = true →
      Builtins.standard.get? name = some opcode → opcode ≠ Opcode.select := by
    rintro name hc hg rfl
    exact (Builtins.standard_callable _ (Builtins.mem_entries hg) hc).1 hown
  cases role with
  | read => exact h ▸ by decide
  | write => exact h ▸ by decide
  | constant name => simpa using hcall (isCallable_lower hn) h
  | negate => exact h ▸ by decide
  | not => exact h ▸ by decide
  | operator op =>
    obtain ⟨vector, ho⟩ := h
    have hne : opcode ≠ Opcode.select := by
      rintro rfl
      exact Builtins.standard_own _ (Builtins.mem_operators ho) hown
    simpa using hne
  | split => rcases h with rfl | rfl <;> decide
  | and => exact h ▸ by decide
  | select => exact ⟨fun _ => rfl, fun _ => h⟩
  | function receiver member count => simpa using hcall (by simp [Builtins.isCallable]) h
  | construct type count =>
    obtain ⟨valueType, ho⟩ := h
    have hne : opcode ≠ Opcode.select := by
      rintro rfl
      exact (constructor?_free ho).1 hown
    simpa using hne

/-- So the nodes with that opcode are as many as the choices that were asked for. -/
theorem countP_select {g : Graph} {roles : List Role} {ns : List Node}
    (h : List.Forall₂ (Role.Describes Builtins.standard g) roles ns) (hn : Role.AllNamed roles) :
    ns.countP (·.opcode == Opcode.select) = roles.count .select := by
  induction h with
  | nil => rfl
  | @cons role n roles ns hfits _ ih =>
    obtain ⟨hrole, hroles⟩ := Role.allNamed_cons.mp hn
    have hiff := hfits.fits.opcode_eq_select_iff hrole
    rw [List.countP_cons, List.count_cons, ih hroles]
    simp only [beq_iff_eq, hiff]

/-! ## Points of a lowering -/

variable {t : Builtins} {first : Ref}

theorem Steps.dataInputs_node {s s' : Site} (h : Steps t s s') (hs : s.Valid t first) {n : Node}
    (hn : n ∈ s.builder.graph.nodes) :
    s'.builder.graph.dataInputs n.ref = s.builder.graph.dataInputs n.ref := by
  rw [Graph.dataInputs_eq, Graph.dataInputs_eq, h.feedsOf_node hs hn]

/-- A valuation of a later graph is one of an earlier graph. -/
theorem Graph.Computes.of_steps {ν : Valuation} {b b' : Builder}
    (h : b'.graph.Computes ν) (hr : Steps t ⟨[], b⟩ ⟨[], b'⟩) (hv : Site.Valid t first ⟨[], b⟩) :
    b.graph.Computes ν := by
  intro n hn
  have hle : b.Le b' := (Steps.le hr :)
  have hinputs : b'.graph.dataInputs n.ref = b.graph.dataInputs n.ref := hr.dataInputs_node hv hn
  rw [← hinputs]
  exact h n (hle.nodes.subset hn)

/-- The inputs of a node that was just added are the wires that it was given. -/
theorem Builder.dataInputs_emit {b : Builder} (hv : Site.Valid t first ⟨[], b⟩) (opcode : Opcode)
    (place : Place) (linked : Ref) (inputs : List Wire) :
    (b.emit opcode place linked inputs).graph.dataInputs b.next = feeds b.next 0 inputs := by
  have hfeeds := b.feedsOf_emit_self (hv.feedsOf_eq_nil (Int.le_refl _)) opcode place linked inputs
  rw [(Graph.drives_of_feeds hfeeds).dataInputs_eq, hfeeds]

theorem Builder.computes_and {b : Builder} (hv : Site.Valid t first ⟨[], b⟩) {ν : Valuation}
    {place : Place} {outer inner : Wire}
    (h : (b.operate Opcode.and place [outer, inner]).graph.Computes ν) (type : ValueType) :
    ν.at (.ofRef type b.next) = (ν.at outer && ν.at inner) := by
  have hnode := (h ⟨Opcode.and, b.next, place, Ref.unlinked⟩ (by simp [operate, emit])).1 rfl
  rw [operate, dataInputs_emit hv] at hnode
  simpa [feeds, Valuation.at, Wire.ofRef, Wire.atPin, Connection.data] using hnode

theorem Builder.computes_not {b : Builder} (hv : Site.Valid t first ⟨[], b⟩) {ν : Valuation}
    {place : Place} {w : Wire} (h : (b.operate Opcode.not place [w]).graph.Computes ν)
    (type : ValueType) : ν.at (.ofRef type b.next) = !ν.at w := by
  have hnode := (h ⟨Opcode.not, b.next, place, Ref.unlinked⟩ (by simp [operate, emit])).2 rfl
  rw [operate, dataInputs_emit hv] at hnode
  exact hnode (.data w.ref w.pin b.next 0) (by simp [feeds])

variable (t first) in
/-- A point of a lowering inside of some choices: the condition there is true just if the tests have
the outcomes that lead there. -/
structure Builder.Guarded (b : Builder) (condition : Option Wire) (tests : List Test)
    (choices : List Choice) : Prop where
  valid : Site.Valid t first ⟨[], b⟩
  yields : ∀ w ∈ condition, b.Yields w
  observed : List.Forall₂ (Test.Observed t b) tests choices
  conditional : condition.isSome = !tests.isEmpty
  means : ∀ ν, b.graph.Computes ν → ((∀ c ∈ condition, ν.at c = true) ↔
    ∀ test ∈ tests, ν.at test.wire = test.outcome)

namespace Builder.Guarded

variable {b b' : Builder} {condition : Option Wire} {tests : List Test} {choices : List Choice}

/-- Later points are inside of the same choices. -/
theorem reach (h : b.Guarded t first condition tests choices)
    (hr : Steps t ⟨[], b⟩ ⟨[], b'⟩) : b'.Guarded t first condition tests choices := by
  have hle : b.Le b' := (Steps.le hr :)
  exact ⟨Steps.valid hr h.valid, fun w hw => (h.yields w hw).mono hle,
    h.observed.imp fun q choice hq => ⟨hq.outcome, hq.lowered, hq.earlier.trans hle.nodes⟩,
    h.conditional, fun ν hν => h.means ν (hν.of_steps hr h.valid)⟩

/-- The condition of a body is the conjunction of the outer one with the test, or with its negation:
with a wire that is true just if the test has the outcome that leads to the body. -/
theorem conjoin (h : b.Guarded t first condition tests choices) {inner : Wire} {test : Test}
    {choice : Choice} (hinner : b.Yields inner) (htest : test.Observed t b choice)
    (hmeans : ∀ ν, b.graph.Computes ν →
      (ν.at inner = true ↔ ν.at test.wire = test.outcome)) :
    (b.afterConjunction condition inner).Guarded t first (some (b.conjoined condition inner))
      (test :: tests) (choice :: choices) := by
  obtain ⟨hr, hyields⟩ := steps_afterConjunction (t := t) h.yields hinner
  have h₁ := h.reach hr.steps
  have hle : b.Le (b.afterConjunction condition inner) := hr.le
  refine ⟨h₁.valid, hyields.some,
    .cons ⟨htest.outcome, htest.lowered, htest.earlier.trans hle.nodes⟩ h₁.observed, rfl,
    fun ν hν => ?_⟩
  have hbefore := hν.of_steps hr.steps h.valid
  have houter := h.means ν hbefore
  simp only [Option.mem_some_iff, forall_eq', List.forall_mem_cons, ← houter, ← hmeans ν hbefore]
  cases condition with
  | none => simp [conjoined]
  | some outer =>
    rw [conjoined, computes_and h.valid hν, Bool.and_eq_true]
    simp [and_comm]

/-- The first body of a choice is inside of it. -/
theorem enterThen (h : b.Guarded t first condition tests choices) {test : Expr} {w : Wire}
    {b₁ : Builder} (he : expr t test b = .ok w b₁) :
    (b₁.afterConjunction condition w).Guarded t first (some (b₁.conjoined condition w))
      (⟨w, true, b, b₁⟩ :: tests) (⟨test, true⟩ :: choices) := by
  obtain ⟨hr, hw⟩ := (ExprLowered.of_run test he).steps h.valid.sound []
  exact (h.reach hr.steps).conjoin hw ⟨rfl, he, List.prefix_rfl⟩ fun _ _ => Iff.rfl

/-- So is the second body, behind the negation of the test. -/
theorem enterElse (h : b.Guarded t first condition tests choices) {test : Expr} {w : Wire}
    {b₀ b₁ b₂ : Builder} (he : expr t test b₀ = .ok w b₁) (hw : b.Yields w)
    (hle : b₁.graph.nodes <+: b.graph.nodes)
    (hb : b₂ = b.operate Opcode.not (placeFor w.isPublic) [w]) :
    (b₂.afterConjunction condition (.ofRef .bool b.next)).Guarded t first
      (some (b₂.conjoined condition (.ofRef .bool b.next)))
      (⟨w, false, b₀, b₁⟩ :: tests) (⟨test, false⟩ :: choices) := by
  subst hb
  have hr : Steps t ⟨[], b⟩ ⟨[], b.operate Opcode.not (placeFor w.isPublic) [w]⟩ :=
    .single (.expr (.node (.not w) (by simpa using hw)))
  refine (h.reach hr).conjoin (b.yields_operate _ _ _ _ _)
    ⟨rfl, he, hle.trans (b.le_operate _ _ _).nodes⟩ fun ν hν => ?_
  rw [computes_not h.valid hν, Bool.not_eq_true']

end Builder.Guarded

/-! ## One assignment -/

theorem mem_drop_of_append_prefix {l m k : List Node} {n : Node} (h : l <+: m)
    (h' : m ++ [n] <+: k) : n ∈ k.drop l.length := by
  obtain ⟨u, rfl⟩ := h
  obtain ⟨v, rfl⟩ := h'
  simp [List.append_assoc]

theorem drop_eq_append_cons {l m k : List Node} {n : Node} (h : l <+: m) (h' : m ++ [n] <+: k) :
    k.drop l.length = m.drop l.length ++ n :: k.drop (m ++ [n]).length := by
  obtain ⟨u, rfl⟩ := h
  obtain ⟨v, rfl⟩ := h'
  simp [List.append_assoc]

/-- A name that is read now carries its value. -/
theorem Builder.yields_reading {b : Builder} {binding : Binding} {l k : List Node}
    (hl : l <+: b.graph.nodes) (hk : (b.afterReading binding).graph.nodes <+: k) :
    binding.Yields (k.drop l.length) (b.reading binding) := by
  cases binding with
  | wire wire => rfl
  | parameter type pin => rfl
  | globalVar type ref => exact ⟨_, mem_drop_of_append_prefix hl hk, rfl, rfl, rfl⟩

/-- The previous value of a target is its value before the assignment. -/
theorem AssignedLowered.yields_previous {binding : Binding} {op : AssignOp} {e : Expr}
    {b b₁ : Builder} {new : Wire} {read : Option Wire} {k : List Node}
    (h : AssignedLowered t binding op e b new read b₁) (hv : Site.Valid t first ⟨[], b⟩)
    (hb : b.YieldsBinding binding) (hk : (b₁.afterPrevious binding read).graph.nodes <+: k) :
    binding.Yields (k.drop b.graph.nodes.length) (b₁.previousWire binding read) := by
  have hle : b.Le b₁ := (h.steps hv.sound hb).1.le
  cases h with
  | plain hop he => exact Builder.yields_reading hle.nodes hk
  | compound hop he ho =>
    obtain ⟨hr, -⟩ := steps_afterReading (t := t) hb []
    have hle₁ := (he.steps (hv.sound.of_exprSteps hr) []).1.le
    exact Builder.yields_reading List.prefix_rfl
      ((hle₁.nodes.trans (Builder.le_operate _ _ _ _).nodes).trans hk)

/-- The choice of an assignment under a condition. -/
theorem Builder.select_afterGating {b b' : Builder} {binding : Binding} {condition new : Wire}
    {read : Option Wire} (hv : Site.Valid t first ⟨[], b⟩) (hb : b.YieldsBinding binding)
    (hc : b.Yields condition) (hn : b.Yields new) (hread : ∀ w ∈ read, b.Yields w)
    (hr : Steps t ⟨[], b.afterGating binding new read (some condition)⟩ ⟨[], b'⟩) :
    ∃ n : Node, (b.afterGating binding new read (some condition)).graph.nodes =
        (b.afterPrevious binding read).graph.nodes ++ [n] ∧
      n.opcode = Opcode.select ∧
      b.gatedWire binding new read (some condition) = .ofRef new.type n.ref ∧
      b'.graph.dataInputs n.ref =
        feeds n.ref 0 [condition, new, b.previousWire binding read] := by
  obtain ⟨hr₁, -⟩ := steps_afterPrevious (t := t) hb hread
  obtain ⟨hr₂, -⟩ := steps_afterGating (t := t) hb hn hread hc.some
  obtain ⟨hv₁, -⟩ := hr₁.keeps hv
  obtain ⟨hv₂, -⟩ := hr₂.keeps hv
  refine ⟨⟨Opcode.select, (b.afterPrevious binding read).next, placeFor new.isPublic,
    Ref.unlinked⟩, rfl, rfl, rfl, ?_⟩
  exact (hr.dataInputs_node hv₂ (by simp [afterGating, operate, emit])).trans
    (dataInputs_emit hv₁ _ _ _ _)

/-- What is stored is received. -/
theorem Builder.receives_afterStore {b b' : Builder} {binding : Binding} {name : String}
    {value : Wire} {last : Ref} {l : List Node} (hv : Site.Valid t first ⟨[], b⟩)
    (hb : b.YieldsBinding binding) (hw : b.Yields value) (hl : l <+: b.graph.nodes)
    (hr : Steps t ⟨[], b.afterStore name value last binding⟩ ⟨[], b'⟩) :
    binding.Receives b'.graph
      ((b.afterStore name value last binding).graph.nodes.drop l.length)
      (b.afterStore name value last binding) name value := by
  have hv₁ : Site.Valid t first ⟨[], b.afterStore name value last binding⟩ :=
    (step_afterStore hb hw).valid hv
  cases binding with
  | wire wire => exact Dictionary.get?_insert_self ..
  | parameter type pin => exact Dictionary.get?_insert_self ..
  | globalVar type ref =>
    refine ⟨⟨Opcode.writeGlobal, b.next, Place.globalWrite, ref⟩,
      mem_drop_of_append_prefix hl List.prefix_rfl, rfl, rfl, ?_⟩
    have hwrite := dataInputs_emit hv Opcode.writeGlobal Place.globalWrite ref [value]
    have hchain : ((b.emit Opcode.writeGlobal Place.globalWrite ref [value]).connect
        (.execution last b.next)).graph.dataInputs b.next = feeds b.next 0 [value] := by
      rw [← hwrite, Graph.dataInputs_eq, Graph.dataInputs_eq]
      exact congrArg (List.mergeSort · _) (Graph.feedsOf_execution rfl b.next)
    exact (hr.dataInputs_node hv₁ (by simp [afterStore, emit, connect])).trans hchain

/-- **One assignment.** What its lowering left behind can be seen in every later graph. -/
theorem Builder.Guarded.observed_assign {b b₁ b₂ b₃ b' : Builder} {condition : Option Wire}
    {tests : List Test} {choices : List Choice} {target : Name} {op : AssignOp} {value : Expr}
    {binding : Binding} {new kept : Wire} {read : Option Wire} {last last' counter : Ref}
    (h : b.Guarded Builtins.standard first condition tests choices)
    (hlowered : assign Builtins.standard target op value condition last b = .ok last' b₃)
    (hb : b.scope.get? target.text = some binding)
    (ha : assignedValue Builtins.standard binding op value b = .ok (new, read) b₁)
    (hk : kept = b₁.gatedWire binding new read condition)
    (hb₂ : b₂ = b₁.afterGating binding new read condition)
    (hb₃ : b₃ = b₂.afterStore target.text kept last binding)
    (hnamed : Role.AllNamed
      (Stmt.assignRoles condition.isSome b.names target.text op.binaryOp? value))
    (hr : Steps Builtins.standard ⟨[], b₃⟩ ⟨[], b'⟩) :
    Gate.Observed Builtins.standard { b'.graph with counter := counter }
      ⟨condition, tests, binding, new, b₁.previousWire binding read, kept, b, b₃⟩
      ⟨target, op, value, choices⟩ := by
  have hassigned := assignedValue_ok ha
  have hbind := h.valid.sound.scope _ _ hb
  obtain ⟨hr₁, hnew, hread⟩ := hassigned.steps h.valid.sound hbind
  obtain ⟨hv₁, -⟩ := hr₁.keeps h.valid
  have hbind₁ : b₁.YieldsBinding binding := hbind.mono hr₁.le
  have hc₁ : ∀ w ∈ condition, b₁.Yields w := fun w hw => (h.yields w hw).mono hr₁.le
  have hgating := steps_afterGating (t := Builtins.standard) hbind₁ hnew hread hc₁
  rw [← hb₂, ← hk] at hgating
  obtain ⟨hr₂, hkept⟩ := hgating
  obtain ⟨hv₂, -⟩ := hr₂.keeps hv₁
  have hbind₂ : b₂.YieldsBinding binding := hbind₁.mono hr₂.le
  have hr₃ : Steps Builtins.standard ⟨[], b₂⟩ ⟨[], b₃⟩ :=
    hb₃ ▸ .single (step_afterStore hbind₂ hkept)
  have hle₁₂ : b.Le b₂ := hr₁.le.trans hr₂.le
  have hle₂₃ : b₂.Le b₃ := hr₃.le
  have hempty : tests.isEmpty = choices.isEmpty := by
    cases h.observed <;> rfl
  have hconditional : condition.isSome = !choices.isEmpty := hempty ▸ h.conditional
  refine ⟨⟨last, last', hlowered⟩, hle₁₂.nodes.trans hle₂₃.nodes, (Steps.le hr).nodes, hb,
    ⟨read, b₁, ha⟩, hconditional, ?_, ?_, ?_, ?_, h.observed, ?_⟩
  · -- the nodes that are added are those of the assignment's roles
    have hstmt : StmtLowered Builtins.standard condition last (.assign target op value target.span)
        b last' b₃ := assign_ok hlowered
    obtain ⟨⟨ns, hns, hroles⟩, -⟩ := hstmt.adds h.valid h.yields
    have hnodes : b₃.graph.nodes.drop b.graph.nodes.length = ns := by
      rw [hns, List.drop_left]
    rw [Stmt.roles] at hroles
    rw [Gate.nodes, hnodes, countP_select hroles hnamed, Stmt.count_assignRoles, hconditional]
    cases choices.isEmpty <;> rfl
  · rintro c rfl
    obtain ⟨hrp, -⟩ := steps_afterPrevious (t := Builtins.standard) hbind₁ hread
    obtain ⟨n, hn, hopcode, hwire, hinputs⟩ := select_afterGating hv₁ hbind₁ (hc₁ c rfl) hnew hread
      (hb₂ ▸ hr₃.trans hr)
    rw [← hb₂] at hn
    have hsplit := drop_eq_append_cons (hr₁.le.trans hrp.le).nodes (hn ▸ hle₂₃.nodes)
    refine ⟨_, n, _, hsplit, hassigned.yields_previous h.valid hbind List.prefix_rfl, hopcode,
      hinputs, hk.trans hwire, ?_⟩
    subst hb₃
    exact receives_afterStore hv₂ hbind₂ hkept (hn ▸ List.prefix_rfl) hr
  · rintro rfl
    exact hk
  · subst hb₃
    exact receives_afterStore hv₂ hbind₂ hkept hle₁₂.nodes hr
  · rintro ν hν c rfl
    have hsteps : Steps Builtins.standard ⟨[], b⟩ ⟨[], b'⟩ :=
      ((hr₁.steps.trans hr₂.steps).trans hr₃).trans hr
    have hcomputes : b'.graph.Computes ν := hν
    simpa using h.means ν (hcomputes.of_steps hsteps h.valid)

/-! ## All assignments -/

mutual

/-- **The assignments of a statement**, at whatever depth, seen from a later point. -/
theorem Stmt.gates_observed : ∀ (s : Stmt) {condition : Option Wire} {tests : List Test}
    {choices : List Choice} {last last' : Ref} {b b' b'' : Builder} {counter : Ref}, s.Writable →
      stmt Builtins.standard condition last s b = .ok last' b' →
      b.Guarded Builtins.standard first condition tests choices →
      Steps Builtins.standard ⟨[], b'⟩ ⟨[], b''⟩ →
        List.Forall₂ (Gate.Observed Builtins.standard { b''.graph with counter := counter })
          (s.gates Builtins.standard condition tests last b) (s.assignments choices)
  | .declare d span, _, _, _, _, _, _, _, _, _, _, _, _, _ => .nil
  | .ret values span, _, _, _, _, _, _, _, _, _, _, _, _, _ => .nil
  | .call receiver member args span, _, _, _, _, _, _, _, _, _, _, _, _, _ => .nil
  | .assign target op value span, condition, tests, choices, last, last', b, b', b'', counter, hw,
      h, hg, hr => by
    rw [stmt] at h
    obtain ⟨binding, new, read, b₁, hb, ha, -, rfl⟩ := assign_parts_ok h
    have hnamed := Stmt.named_roles condition.isSome b.names hw
    rw [Stmt.gates, hb, Option.elim_some, behind_ok ha]
    dsimp only
    rw [behind_ok (gated_run ..), behind_ok (store_run ..), Stmt.assignments]
    exact .cons (hg.observed_assign h hb ha rfl rfl rfl hnamed hr) .nil
  | .branch test thenBody none span, condition, tests, choices, last, last', b, b', b'', counter,
      hw, h, hg, hr => by
    obtain ⟨w, b₁, last₁, b₂, h₁, h₂, rfl, rfl⟩ := branch_ok h
    rw [Stmt.gates, behind_ok h₁, behind_ok (conjunction_run ..), Stmt.assignments]
    exact Stmt.bodyGates_observed thenBody hw.2.1 h₂ (hg.enterThen h₁) hr
  | .branch test thenBody (some elseBody) span, condition, tests, choices, last, last', b, b', b'',
      counter, hw, h, hg, hr => by
    obtain ⟨w, b₁, last₁, b₂, h₁, h₂, h₃⟩ := branch_ok h
    have hnot : unary Opcode.not w b₂ = .ok (.ofRef .bool b₂.next)
        (b₂.operate Opcode.not (placeFor w.isPublic) [w]) := rfl
    rw [Stmt.gates, behind_ok h₁, behind_ok (conjunction_run ..), behind_ok h₂, behind_ok hnot,
      behind_ok (conjunction_run ..), Stmt.assignments]
    -- behind the first body the test is still there, and the outer condition means what it meant
    have hthen := hg.enterThen h₁
    obtain ⟨hr₁, hyields⟩ := (ExprLowered.of_run test h₁).steps hg.valid.sound []
    have hg₁ := hg.reach hr₁.steps
    have hr₂ : Steps Builtins.standard ⟨[], b₁⟩ ⟨[], b₂⟩ :=
      (steps_afterConjunction hg₁.yields hyields).1.steps.trans
        ((BodyLowered.of_run thenBody h₂).steps hthen.valid.sound hthen.yields)
    have hle : b₁.Le b₂ := (Steps.le hr₂ :)
    have helse := (hg₁.reach hr₂).enterElse h₁ (hyields.mono hle) hle.nodes rfl
    have hr₃ := (BodyLowered.of_run elseBody h₃).steps helse.valid.sound helse.yields
    have hnegated := (steps_else (t := Builtins.standard) rfl (hyields.mono hle)
      fun v hv => (hg₁.yields v hv).mono hle).1
    exact List.rel_append
      (Stmt.bodyGates_observed thenBody hw.2.1 h₂ hthen (hnegated.steps.trans (hr₃.trans hr)))
      (Stmt.bodyGates_observed elseBody hw.2.2 h₃ helse hr)

/-- The assignments of statements one after another. -/
theorem Stmt.bodyGates_observed : ∀ (body : List Stmt) {condition : Option Wire} {tests : List Test}
    {choices : List Choice} {last last' : Ref} {b b' b'' : Builder} {counter : Ref},
      Stmt.BodyWritable body →
      Lowering.body Builtins.standard condition last body b = .ok last' b' →
      b.Guarded Builtins.standard first condition tests choices →
      Steps Builtins.standard ⟨[], b'⟩ ⟨[], b''⟩ →
        List.Forall₂ (Gate.Observed Builtins.standard { b''.graph with counter := counter })
          (Stmt.bodyGates Builtins.standard condition tests last b body)
          (Stmt.bodyAssignments choices body)
  | [], _, _, _, _, _, _, _, _, _, _, _, _, _ => .nil
  | s :: rest, condition, tests, choices, last, last', b, b', b'', counter, hw, h, hg, hr => by
    obtain ⟨last₁, b₁, h₁, h₂⟩ := body_cons_ok h
    have hr₁ := (StmtLowered.of_run s h₁).steps hg.valid.sound hg.yields
    have hg₁ := hg.reach hr₁
    have hr₂ := (BodyLowered.of_run rest h₂).steps hg₁.valid.sound hg₁.yields
    rw [Stmt.bodyGates, behind_ok h₁, Stmt.bodyAssignments]
    exact List.rel_append (Stmt.gates_observed s hw.1 h₁ hg (hr₂.trans hr))
      (Stmt.bodyGates_observed rest hw.2 h₂ hg₁ hr)

end

/-! ## Programs -/

theorem Program.bodyWritable_of_entry {p : Program} (h : p.Writable) {m : Method}
    (hm : p.entry? = some m) : Stmt.BodyWritable m.body := by
  have hmem : m ∈ p.methods := List.mem_of_find?_eq_some hm
  obtain ⟨item, hitem, he⟩ := List.mem_filterMap.mp hmem
  cases item with
  | globalVar d => cases he
  | method m' =>
    obtain rfl := Option.some.inj he
    exact (h.1 _ hitem).2.2

/-- **Gates.** Take a program that was read from a source and has a graph. Each of its assignments,
at whatever depth, adds one node that chooses if it is inside of a choice, and none if it is not.
The inputs of that node are the condition, the new value and the value of the target before; what it
yields is written to the variable, or the name stands for it from there on. In every valuation in
which conjunctions and negations are computed, the condition is true just if the test of every
choice around the assignment is true for the first body and false for the second. A test is lowered
in front of both bodies, and once: the nodes of the graph are those that the text asks for. -/
theorem lower_gates {source : String} {p : Program} {first : Ref} {g : Graph}
    (hp : Program.parse source = .ok p) (hf : 1 ≤ first)
    (h : p.lower Builtins.standard first = .ok g) :
    List.Forall₂ (Gate.Observed Builtins.standard g) (p.gates Builtins.standard first)
        p.assignments ∧
      List.Forall₂ (fun role n => role.Fits Builtins.standard n.opcode) p.roles g.nodes := by
  refine ⟨?_, ((ProgramLowered.of_lower h).adds hf).imp fun _ _ hn => hn.fits⟩
  obtain ⟨m, hm⟩ := Program.entry?_of_parse hp
  obtain ⟨b₁, b₂, last, b₃, h₁, h₂, h₃, rfl⟩ := lower_entry_ok h hm
  have hglobals := GlobalsLowered.of_run _ h₁
  have hr₁ : Steps Builtins.standard _ _ := hglobals.steps
  have hr₂ : Steps Builtins.standard _ _ :=
    (ParamsLowered.of_run _ h₂).steps (by rw [hglobals.graph_eq]; rfl)
  have hvalid := hr₂.valid (hr₁.valid (Site.valid_start Builtins.standard hf))
  have hstart : b₂.Guarded Builtins.standard first none [] [] :=
    ⟨hvalid, nofun, .nil, rfl, fun ν _ => by simp⟩
  rw [Program.gates, Program.assignments, hm, Option.elim_some, Option.elim_some,
    behind_ok (bind_ok.mpr ⟨_, b₁, h₁, h₂⟩)]
  exact Stmt.bodyGates_observed m.body
    (Program.bodyWritable_of_entry (Program.writable_of_parse hp) hm) h₃ hstart .refl

/-- A source with assignments to a variable, a parameter and a local, in a first body and in a
second one inside of it, with a declaration and a return among them. -/
def nestedAssignments : String :=
  "float g; def Main(bool c, float y) \x7b if (c) \x7b if (!c) \x7b g += y; \x7d else " ++
    "\x7b y = g; float y = 3; y = g; return(y); \x7d \x7d g = y; \x7d"

/-- The four assignments of `nestedAssignments`, with the outcomes that lead to them. -/
theorem lower_gates_nestedAssignments :
    ∃ p g, Program.parse nestedAssignments = .ok p ∧ p.lower Builtins.standard 1 = .ok g ∧
      p.assignments.map (fun a => a.choices.map Choice.outcome) =
        [[true, true], [false, true], [false, true], []] ∧
      List.Forall₂ (Gate.Observed Builtins.standard g) (p.gates Builtins.standard 1)
        p.assignments ∧
      List.Forall₂ (fun role n => role.Fits Builtins.standard n.opcode) p.roles g.nodes := by
  obtain ⟨p, g, hp, hg⟩ := exists_lowered nestedAssignments Builtins.standard 1 (by decide +kernel)
  refine ⟨p, g, hp, hg, ?_, lower_gates hp (by decide) hg⟩
  have hchoices : (Program.parse nestedAssignments).toOption.map (fun p =>
      p.assignments.map fun a => a.choices.map Choice.outcome) =
      some [[true, true], [false, true], [false, true], []] := by
    decide +kernel
  simpa [hp, Except.toOption] using hchoices

end ScriptGraph
