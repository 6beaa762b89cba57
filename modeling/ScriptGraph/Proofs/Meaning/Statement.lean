import ScriptGraph.Proofs.Meaning.Expression
import ScriptGraph.Proofs.Meaning.Predication

/-!
# Statements keep their meaning

Lowering a statement under a condition is predicated execution: if the wire of the condition holds a
true value, or a false one, then behind the statement the names mean in the graph what they mean
after running the statement under that condition.

* `Builder.view` — what the names mean at this point of a graph, as a `View`;
* `Builder.Named` — names that stand for variables stand for the latest ones, and no two for one;
* `Builder.Under` — the condition holds a true value, or a false one;
* `StmtLowered.predicates`, `BodyLowered.predicates` — the simulation.
-/

namespace ScriptGraph

open Lowering

variable {V : Type} {rt : Runtime V} {t : Builtins} {args : Nat → V} {σ : Ref → V}

namespace Builder

variable (rt args) in
/-- The value of a binding that is no variable. -/
def localBound? (b : Builder) (m : Memory V) : Binding → Option V
  | .globalVar _ _ => none
  | binding => b.bound? rt args m binding

variable (rt args) in
/-- The value of a name that stands for no variable. -/
def local? (b : Builder) (m : Memory V) (name : String) : Option V :=
  (b.scope.get? name).bind (b.localBound? rt args m)

variable (rt args) in
/-- What the names mean at this point of the graph. -/
def view (b : Builder) (m : Memory V) : View V :=
  ⟨m.store, b.local? rt args m⟩

/-- The names of variables: one that stands for a variable stands for the latest of its name, a name
that has a variable stands for something, and no two names have one variable. -/
structure Named (b : Builder) : Prop where
  latest : ∀ name type ref, b.scope.get? name = some (.globalVar type ref) →
    b.graph.latestRef? name = some ref
  bound : ∀ name ref, b.graph.latestRef? name = some ref → (b.scope.get? name).isSome = true
  distinct : ∀ name name' ref, b.graph.latestRef? name = some ref →
    b.graph.latestRef? name' = some ref → name = name'

variable (rt args) in
/-- A condition, if there is one, holds a value of the given truth; without one it is true. -/
def Under (b : Builder) (m : Memory V) (condition : Option Wire) (truth : Bool) : Prop :=
  match condition with
  | none => truth = true
  | some w => ∃ v, b.Holds rt args m w v ∧ rt.truth v = truth

variable {b b₁ b₂ : Builder} {m m₁ m₂ : Memory V}

theorem Under.carry {condition : Option Wire} {truth : Bool}
    (h : b.Under rt args m condition truth) (hl : b.Live rt args σ m)
    (hc : Carries rt args b.next b m b₁ m₁) : b₁.Under rt args m₁ condition truth := by
  cases condition with
  | none => exact h
  | some w =>
    obtain ⟨v, hv, ht⟩ := h
    exact ⟨v, hv.carry hl hc, ht⟩

/-! ## Names -/

/-- The value of a name is that of its local, or else that of its variable. -/
theorem Live.look_eq (hl : b.Live rt args σ m) (hn : b.Named) :
    b.look rt args m = (b.view rt args m).look b.graph.latestRef? := by
  funext name
  have hlocal : (b.view rt args m).local? name = b.local? rt args m name := rfl
  rw [Builder.look, View.look, hlocal, Builder.local?]
  rcases hb : b.scope.get? name with _ | binding
  · rcases hr : b.graph.latestRef? name with _ | ref
    · rfl
    · have hsome := hn.bound name ref hr
      rw [hb] at hsome
      cases hsome
  · have hsome := hl.scope name binding hb
    obtain ⟨v, hv⟩ := Option.isSome_iff_exists.mp hsome
    cases binding with
    | globalVar type ref =>
      rw [hn.latest name type ref hb]
      rfl
    | wire wire => simp only [Option.bind_some, localBound?, hv, Option.some_or]
    | parameter type pin => simp only [Option.bind_some, localBound?, hv, Option.some_or]

/-- A name keeps its local value while something is computed. -/
theorem Computes.view_eq (hl : b.Live rt args σ m) (h : Computes rt args σ b.next b m b₁ m₁) :
    b₁.view rt args m₁ = b.view rt args m := by
  have hlocal : b₁.local? rt args m₁ = b.local? rt args m := by
    funext name
    rw [local?, local?, h.scope]
    rcases hb : b.scope.get? name with _ | binding
    · rfl
    · have hbound := bound?_carry hl hb h.carries h.store
      cases binding with
      | globalVar type ref => rfl
      | wire wire => exact hbound
      | parameter type pin => exact hbound
  rw [view, view, h.store, hlocal]

theorem Computes.named (hn : b.Named) {base : Ref} (h : Computes rt args σ base b m b₁ m₁) :
    b₁.Named := by
  refine ⟨fun name type ref hb => ?_, fun name ref hr => ?_, fun name name' ref hr hr' => ?_⟩
  · rw [h.scope] at hb
    rw [Graph.latestRef?_congr h.globals]
    exact hn.latest name type ref hb
  · rw [Graph.latestRef?_congr h.globals] at hr
    rw [h.scope]
    exact hn.bound name ref hr
  · rw [Graph.latestRef?_congr h.globals] at hr hr'
    exact hn.distinct name name' ref hr hr'

/-! ## Stores -/

variable (rt args σ) in
/-- A statement was run: only new ids are concerned, and the names mean something new. -/
structure Runs (b : Builder) (m : Memory V) (s : View V) (b' : Builder) (m' : Memory V) : Prop where
  live : b'.Live rt args σ m'
  carries : Carries rt args b.next b m b' m'
  named : b'.Named
  globals : b'.graph.globals = b.graph.globals
  view : b'.view rt args m' = s

/-- A name is bound to a wire that holds a value. -/
theorem Live.bindWire (hl : b.Live rt args σ m) (hn : b.Named) {w : Wire} {v : V}
    (hv : b.Holds rt args m w v) (name : String) :
    Runs rt args σ b m ((b.view rt args m).bind name v) (b.bind name (.wire w)) m := by
  refine ⟨⟨hl.run, hl.next_pos, hl.nodes, hl.fresh, hl.blank, ?_, ?_⟩,
    ⟨Int.le_refl _, fun _ _ _ => rfl, fun _ _ => rfl, fun _ h => .inl h⟩, ⟨?_, ?_, hn.distinct⟩, rfl,
    ?_⟩
  · intro other binding hb
    by_cases ho : other = name
    · rw [ho, Builder.bind, Dictionary.get?_insert_self] at hb
      obtain rfl := Option.some.inj hb
      exact Option.isSome_iff_exists.mpr ⟨v, hv⟩
    · rw [Builder.bind, Dictionary.get?_insert_of_ne ho] at hb
      exact hl.scope other binding hb
  · intro other type ref hb
    by_cases ho : other = name
    · rw [ho, Builder.bind, Dictionary.get?_insert_self] at hb
      cases hb
    · rw [Builder.bind, Dictionary.get?_insert_of_ne ho] at hb
      exact hl.linked other type ref hb
  · intro other type ref hb
    by_cases ho : other = name
    · rw [ho, Builder.bind, Dictionary.get?_insert_self] at hb
      cases hb
    · rw [Builder.bind, Dictionary.get?_insert_of_ne ho] at hb
      exact hn.latest other type ref hb
  · intro other ref hr
    by_cases ho : other = name
    · rw [ho, Builder.bind, Dictionary.get?_insert_self]
      rfl
    · rw [Builder.bind, Dictionary.get?_insert_of_ne ho]
      exact hn.bound other ref hr
  · refine View.ext rfl (funext fun other => ?_)
    by_cases ho : other = name
    · rw [ho, View.bind_self, view]
      simp only [local?, Builder.bind, Dictionary.get?_insert_self, Option.bind_some, localBound?]
      exact hv
    · rw [View.bind_of_ne ho, view]
      simp only [local?, Builder.bind, Dictionary.get?_insert_of_ne ho]
      rfl

/-- A variable is written. -/
theorem Live.write (hl : b.Live rt args σ m) (hn : b.Named) {name : String} {type : ValueType}
    {ref last : Ref} (hb : b.scope.get? name = some (.globalVar type ref)) {w : Wire} {v : V}
    (hv : b.Holds rt args m w v) :
    Runs rt args σ b m ((b.view rt args m).write ref v)
      ((b.emit Opcode.writeGlobal Place.globalWrite ref [w]).connect (.execution last b.next))
      (m.write ref v) := by
  obtain ⟨hself, hother⟩ := feedsOf_emit hl Opcode.writeGlobal Place.globalWrite ref [w]
  have hchain : ∀ r, ((b.emit Opcode.writeGlobal Place.globalWrite ref [w]).connect
      (.execution last b.next)).graph.feedsOf r =
        (b.emit Opcode.writeGlobal Place.globalWrite ref [w]).graph.feedsOf r :=
    fun r => Graph.feedsOf_execution
      (g := (b.emit Opcode.writeGlobal Place.globalWrite ref [w]).graph) rfl r
  have hnext : b.next < b.next + 1 := Int.lt_add_one_of_le (Int.le_refl _)
  have hpos := hl.linked name type ref hb
  refine ⟨⟨?_, Int.lt_trans hl.next_pos hnext, ?_, ?_, ?_, ?_, hl.linked⟩,
    ⟨Int.le_of_lt hnext, fun _ _ _ => rfl, ?_, ?_⟩, ⟨hn.latest, hn.bound, hn.distinct⟩, rfl, ?_⟩
  · exact hl.run_addNode (n := ⟨Opcode.writeGlobal, b.next, Place.globalWrite, ref⟩) rfl rfl
      (fun k hk => Int.ne_of_lt (hl.nodes k hk)) ((hchain b.next).trans hself)
      (fun r hr => (hchain r).trans (hother r hr)) (.cons hv .nil)
      (Graph.perform_write hpos b.next Place.globalWrite v)
  · intro k hk
    rcases List.mem_append.mp hk with hk | hk
    · exact Int.lt_trans (hl.nodes k hk) hnext
    · rw [List.mem_singleton.mp hk]
      exact hnext
  · intro r hr
    rw [hchain, hother r (Int.ne_of_gt (Int.lt_of_lt_of_le hnext hr))]
    exact hl.fresh r (Int.le_trans (Int.le_of_lt hnext) hr)
  · exact fun r hr => hl.blank r (Int.le_trans (Int.le_of_lt hnext) hr)
  · intro other binding hb
    cases binding with
    | wire wire => exact hl.scope other _ hb
    | parameter type pin => rfl
    | globalVar type ref => rfl
  · intro r hr
    rw [hchain, hother r (Int.ne_of_lt hr)]
  · intro k hk
    rcases List.mem_append.mp hk with hk | hk
    · exact .inl hk
    · rw [List.mem_singleton.mp hk]
      exact .inr (Int.le_refl _)
  · refine View.ext rfl (funext fun other => ?_)
    -- the locals are where they were, only the store has changed
    refine congrArg (Option.bind (b.scope.get? other)) (funext fun binding => ?_)
    cases binding <;> rfl

/-- A value is stored under a name. -/
theorem Live.store (hl : b.Live rt args σ m) (hn : b.Named) {name : String} {binding : Binding}
    (hb : b.scope.get? name = some binding) {w : Wire} {v : V} (hv : b.Holds rt args m w v)
    (last : Ref) :
    ∃ m₁, Runs rt args σ b m ((b.view rt args m).assign b.graph.latestRef? name v)
      (b.afterStore name w last binding) m₁ := by
  have hlocal : (b.view rt args m).local? name = b.localBound? rt args m binding := by
    simp only [view, local?, hb, Option.bind_some]
  have hsome := hl.scope name binding hb
  rw [View.assign, hlocal]
  cases binding with
  | globalVar type ref =>
    rw [hn.latest name type ref hb]
    exact ⟨_, hl.write hn hb hv⟩
  | wire wire =>
    obtain ⟨old, hold⟩ := Option.isSome_iff_exists.mp hsome
    rw [localBound?, hold]
    · exact ⟨m, hl.bindWire hn hv name⟩
    · intro type ref he
      cases he
  | parameter type pin => exact ⟨m, hl.bindWire hn hv name⟩

theorem Computes.runs (hl : b.Live rt args σ m) (hn : b.Named)
    (h : Computes rt args σ b.next b m b₁ m₁) :
    Runs rt args σ b m (b.view rt args m) b₁ m₁ :=
  ⟨h.live, h.carries, h.named hn, h.globals, h.view_eq hl⟩

theorem Runs.trans {s s' : View V} (h : Runs rt args σ b m s b₁ m₁)
    (h' : Runs rt args σ b₁ m₁ s' b₂ m₂) : Runs rt args σ b m s' b₂ m₂ :=
  ⟨h'.live, h.carries.trans h'.carries h.carries.next, h'.named, h'.globals.trans h.globals, h'.view⟩

/-! ## Conditions -/

/-- The wire of a conjunction holds it. -/
theorem Live.conjunction (hrt : rt.Lawful t) (hl : b.Live rt args σ m) {outer : Option Wire}
    {truth : Bool} (ho : b.Under rt args m outer truth) {inner : Wire} {v : V}
    (hv : b.Holds rt args m inner v) :
    ∃ m₁, Computes rt args σ b.next b m (b.afterConjunction outer inner) m₁ ∧
      (b.afterConjunction outer inner).Under rt args m₁ (some (b.conjoined outer inner))
        (truth && rt.truth v) := by
  cases outer with
  | none =>
    have htrue : truth = true := ho
    refine ⟨m, .refl hl _, v, hv, ?_⟩
    rw [htrue, Bool.true_and]
  | some outer =>
    obtain ⟨u, hu, ht⟩ := ho
    obtain ⟨m₁, hc, hw⟩ := hl.operate Opcode.and Place.origin (.cons hu (.cons hv .nil))
    refine ⟨m₁, hc, _, hw .bool 0, ?_⟩
    rw [hrt.and, ht]

/-- The previous value of a target is at hand. -/
theorem Live.previous (hl : b.Live rt args σ m) {name : String} {binding : Binding}
    (hb : b.scope.get? name = some binding) {old : V}
    (hold : b.bound? rt args m binding = some old) {previous : Option Wire}
    (hp : ∀ w ∈ previous, b.Holds rt args m w old) :
    ∃ m₁, Computes rt args σ b.next b m (b.afterPrevious binding previous) m₁ ∧
      (b.afterPrevious binding previous).Holds rt args m₁ (b.previousWire binding previous) old := by
  cases previous with
  | some previous => exact ⟨m, .refl hl _, hp previous rfl⟩
  | none =>
    obtain ⟨m₁, v, hc, hv, hbound⟩ := hl.reading hb
    obtain rfl := Option.some.inj (hbound.symm.trans hold)
    exact ⟨m₁, hc, hv⟩

/-- The wire that an assignment leaves holds the new value or the old one, by the condition. -/
theorem Live.gate (hrt : rt.Lawful t) (hl : b.Live rt args σ m) {name : String} {binding : Binding}
    (hb : b.scope.get? name = some binding) {condition : Option Wire} {truth : Bool}
    (hc : b.Under rt args m condition truth) {new : Wire} {x old : V}
    (hx : b.Holds rt args m new x) (hold : b.bound? rt args m binding = some old)
    {previous : Option Wire} (hp : ∀ w ∈ previous, b.Holds rt args m w old) :
    ∃ m₁, Computes rt args σ b.next b m (b.afterGating binding new previous condition) m₁ ∧
      (b.afterGating binding new previous condition).Holds rt args m₁
        (b.gatedWire binding new previous condition) (if truth then x else old) := by
  cases condition with
  | none =>
    have htrue : truth = true := hc
    refine ⟨m, .refl hl _, ?_⟩
    rw [htrue, if_pos rfl]
    exact hx
  | some condition =>
    obtain ⟨u, hu, ht⟩ := hc
    obtain ⟨m₁, hc₁, hold₁⟩ := hl.previous hb hold hp
    have hu₁ := hu.carry hl hc₁.carries
    have hx₁ := hx.carry hl hc₁.carries
    obtain ⟨m₂, hc₂, hw⟩ := hc₁.live.operate Opcode.select (placeFor new.isPublic)
      (.cons hu₁ (.cons hx₁ (.cons hold₁ .nil)))
    refine ⟨m₂, hc₁.trans hc₂ hc₁.carries.next, ?_⟩
    have hw := hw new.type 0
    rw [hrt.select, ht] at hw
    exact hw

end Builder

open Builder

/-- The right-hand side of an assignment: the new value, and the old one if it was read for it. -/
theorem AssignedLowered.computes (hrt : rt.Lawful t) {name : String} {binding : Binding}
    {op : AssignOp} {e : Expr} {b b' : Builder} {new : Wire} {previous : Option Wire} {m : Memory V}
    (h : AssignedLowered t binding op e b new previous b') (hl : b.Live rt args σ m)
    (hb : b.scope.get? name = some binding) :
    ∃ m' old v x, Computes rt args σ b.next b m b' m' ∧ b'.Holds rt args m' new x ∧
      (∀ w ∈ previous, b'.Holds rt args m' w old) ∧ b.bound? rt args m binding = some old ∧
      e.eval rt t (b.look rt args m) = some v ∧ op.combine rt t old v = some x := by
  cases h with
  | plain hop he =>
    obtain ⟨m', v, hc, hv, heval⟩ := he.computes hrt hl
    obtain ⟨old, hold⟩ := Option.isSome_iff_exists.mp (hl.scope name binding hb)
    refine ⟨m', old, v, v, hc, hv, nofun, hold, heval, ?_⟩
    rw [AssignOp.combine, hop]
  | @compound _ bop _ b₁ operand opcode hop he ho =>
    obtain ⟨m₁, old, hc₁, hold, hbound⟩ := hl.reading hb
    obtain ⟨m₂, v, hc₂, hv, heval⟩ := he.computes hrt hc₁.live
    rw [hc₁.look_eq hl] at heval
    have hold₂ := hold.carry hc₁.live hc₂.carries
    have hc₁₂ := hc₁.trans hc₂ hc₁.carries.next
    obtain ⟨m₃, hc₃, hw⟩ := hc₂.live.operate opcode
      (placeFor ((b.reading binding).isPublic || operand.isPublic)) (.cons hold₂ (.cons hv .nil))
    refine ⟨m₃, old, v, _, hc₁₂.trans hc₃ hc₁₂.carries.next, hw _ 0, ?_, hbound, heval, ?_⟩
    · rintro w ⟨⟩
      exact hold₂.carry hc₂.live hc₃.carries
    · rw [AssignOp.combine, hop]
      exact hrt.binary?_eq ho old v

mutual

/-- **Lowering is predicated execution.** If the condition of a statement that does not return holds
a value of some truth, the names mean behind it what they mean after running it under that truth. -/
theorem StmtLowered.predicates (hrt : rt.Lawful t) {condition : Option Wire} {last last' : Ref}
    {s : Stmt} {b b' : Builder} {m : Memory V} {truth : Bool}
    (h : StmtLowered t condition last s b last' b') (hl : b.Live rt args σ m) (hn : b.Named)
    (hc : b.Under rt args m condition truth) (hr : s.returnFree = true) :
    ∃ m' view, s.predicated rt t b.graph.latestRef? truth (b.view rt args m) = some view ∧
      Runs rt args σ b m view b' m' := by
  have hlook := hl.look_eq hn
  cases h with
  | @declarePublic _ _ d span _ type hp hi ht =>
    obtain ⟨hc₁, hv⟩ := hl.addLiteral d.name.text Place.publicValue (.ofInt 0)
    have hbind := hc₁.live.bindWire (hc₁.named hn) (hv (.ofPublic type b.next) rfl) d.name.text
    rw [hc₁.view_eq hl] at hbind
    refine ⟨m, _, ?_, (hc₁.runs hl hn).trans hbind⟩
    rw [Stmt.predicated, hi]
  | @declare _ _ d span init _ b₁ w hp hi he =>
    obtain ⟨m₁, v, hc₁, hv, heval⟩ := he.computes hrt hl
    have hbind := hc₁.live.bindWire (hc₁.named hn) hv d.name.text
    rw [hc₁.view_eq hl] at hbind
    refine ⟨m₁, _, ?_, (hc₁.runs hl hn).trans hbind⟩
    rw [hlook] at heval
    rw [Stmt.predicated, hi]
    simp only [heval]
    rfl
  | @assign _ _ target op value span _ b₁ binding new previous hb ha =>
    obtain ⟨m₁, old, v, x, hc₁, hx, hp, hold, heval, hcombine⟩ := ha.computes hrt hl hb
    have hb₁ : b₁.scope.get? target.text = some binding := by
      rw [hc₁.scope]
      exact hb
    have hold₁ : b₁.bound? rt args m₁ binding = some old :=
      (bound?_carry hl hb hc₁.carries hc₁.store).trans hold
    -- the value is gated by the condition, then stored
    obtain ⟨m₂, hc₂, hkept⟩ := hc₁.live.gate hrt hb₁ (hc.carry hl hc₁.carries) hx hold₁ hp
    have hc₁₂ := hc₁.trans hc₂ hc₁.carries.next
    have hb₂ : (b₁.afterGating binding new previous condition).scope.get? target.text =
        some binding := by
      rw [hc₁₂.scope]
      exact hb
    obtain ⟨m₃, hstore⟩ := hc₁₂.live.store (hc₁₂.named hn) hb₂ hkept last
    rw [hc₁₂.view_eq hl, funext (Graph.latestRef?_congr hc₁₂.globals)] at hstore
    refine ⟨m₃, _, ?_, (hc₁₂.runs hl hn).trans hstore⟩
    have hlooked : (b.view rt args m).look b.graph.latestRef? target.text = some old := by
      rw [← hlook, Builder.look, hb, Option.bind_some, hold]
    rw [hlook] at heval
    rw [Stmt.predicated, hlooked, heval]
    simp only [Option.bind_eq_bind, Option.bind_some, hcombine]
    rfl
  | @branch _ _ _ test thenBody span _ b₁ b₂ w he hthen =>
    obtain ⟨m₁, v, hc₁, hv, heval⟩ := he.computes hrt hl
    obtain ⟨m₂, hc₂, hunder⟩ := hc₁.live.conjunction hrt (hc.carry hl hc₁.carries) hv
    have hc₁₂ := hc₁.trans hc₂ hc₁.carries.next
    obtain ⟨m₃, view, hview, hruns⟩ :=
      hthen.predicates hrt hc₁₂.live (hc₁₂.named hn) hunder hr
    rw [hc₁₂.view_eq hl, funext (Graph.latestRef?_congr hc₁₂.globals)] at hview
    refine ⟨m₃, view, ?_, (hc₁₂.runs hl hn).trans hruns⟩
    rw [hlook] at heval
    rw [Stmt.predicated, heval]
    simp only [Option.bind_eq_bind, Option.bind_some, hview]
    rfl
  | @branchElse _ _ last₁ _ test thenBody elseBody span _ b₁ b₂ b₃ _ w he hthen hnot helse =>
    rw [Stmt.returnFree, Bool.and_eq_true] at hr
    obtain ⟨m₁, v, hc₁, hv, heval⟩ := he.computes hrt hl
    obtain ⟨m₂, hc₂, hunder⟩ := hc₁.live.conjunction hrt (hc.carry hl hc₁.carries) hv
    have hc₁₂ := hc₁.trans hc₂ hc₁.carries.next
    obtain ⟨m₃, view, hview, hruns⟩ :=
      hthen.predicates hrt hc₁₂.live (hc₁₂.named hn) hunder hr.1
    rw [hc₁₂.view_eq hl, funext (Graph.latestRef?_congr hc₁₂.globals)] at hview
    have hruns₃ := (hc₁₂.runs hl hn).trans hruns
    -- the wire of the test still holds its value behind the first body
    have hv₃ : b₂.Holds rt args m₃ w v := by
      have hc₁₃ := hc₂.carries.trans hruns.carries hc₂.carries.next
      exact hv.carry hc₁.live hc₁₃
    subst hnot
    obtain ⟨m₄, hc₄, hw⟩ := hruns₃.live.operate Opcode.not (placeFor w.isPublic) (.cons hv₃ .nil)
    have hc₀₄ := hruns₃.carries.trans hc₄.carries hruns₃.carries.next
    have hw₄ : Builder.Holds rt args _ m₄ (.ofRef .bool b₂.next) _ := hw .bool 0
    obtain ⟨m₅, hc₅, hunder₅⟩ := hc₄.live.conjunction hrt (hc.carry hl hc₀₄) hw₄
    have hc₄₅ := hc₄.trans hc₅ hc₄.carries.next
    -- the second body runs under the outer condition and the negated test
    obtain ⟨m₆, view', hview', hruns'⟩ :=
      helse.predicates hrt hc₄₅.live (hc₄₅.named hruns₃.named) hunder₅ hr.2
    have hglobals := hc₄₅.globals.trans hruns₃.globals
    rw [hc₄₅.view_eq hruns₃.live, hruns₃.view, funext (Graph.latestRef?_congr hglobals),
      hrt.not] at hview'
    refine ⟨m₆, view', ?_, (hruns₃.trans (hc₄₅.runs hruns₃.live hruns₃.named)).trans hruns'⟩
    rw [hlook] at heval
    rw [Stmt.predicated, heval]
    simp only [Option.bind_eq_bind, Option.bind_some, hview, hview']
  | ret h => cases hr
  | @call _ _ receiver member es span _ b₁ w h =>
    obtain ⟨m₁, v, hc₁, hv, heval⟩ := h.computes hrt hl
    refine ⟨m₁, _, ?_, hc₁.runs hl hn⟩
    rw [hlook] at heval
    rw [Stmt.predicated, heval]
    rfl

/-- The same for statements one after another. -/
theorem BodyLowered.predicates (hrt : rt.Lawful t) {condition : Option Wire} {last last' : Ref}
    {body : List Stmt} {b b' : Builder} {m : Memory V} {truth : Bool}
    (h : BodyLowered t condition last body b last' b') (hl : b.Live rt args σ m) (hn : b.Named)
    (hc : b.Under rt args m condition truth) (hr : Stmt.bodyReturnFree body = true) :
    ∃ m' view,
      Stmt.bodyPredicated rt t b.graph.latestRef? truth (b.view rt args m) body = some view ∧
      Runs rt args σ b m view b' m' := by
  cases h with
  | nil =>
    refine ⟨m, _, ?_, (Computes.refl hl b.next).runs hl hn⟩
    rw [Stmt.bodyPredicated]
  | @cons _ _ last₁ _ s rest _ b₁ _ h hlast hs =>
    rw [Stmt.bodyReturnFree, Bool.and_eq_true] at hr
    obtain ⟨m₁, view, hview, hruns⟩ := h.predicates hrt hl hn hc hr.1
    obtain ⟨m₂, view', hview', hruns'⟩ :=
      hs.predicates hrt hruns.live hruns.named (hc.carry hl hruns.carries) hr.2
    rw [hruns.view, funext (Graph.latestRef?_congr hruns.globals)] at hview'
    refine ⟨m₂, view', ?_, hruns.trans hruns'⟩
    rw [Stmt.bodyPredicated, hview]
    exact hview'

end

end ScriptGraph
