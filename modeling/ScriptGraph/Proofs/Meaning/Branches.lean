import ScriptGraph.Proofs.Lowering.Feeding
import ScriptGraph.Proofs.Meaning.Program
import ScriptGraph.Proofs.Tree.Parts

/-!
# Branches that are not taken

Both bodies of a choice are lowered, and there is one scope for the whole method. Where the condition
of a branch is false, its assignments keep the old values and its returns change nothing, but its
declarations bind their names all the same. So a branch that is not taken amounts to its
declarations, one after another: the names that it declares have the values of their initial
expressions behind it and stand for no global variable any more, and all other names are as they
were.

* `Stmt.declarations`, `View.declare` — the declarations of a statement, and what one of them does;
* `Builder.Follows` — behind a statement no name has come to stand for a variable;
* `Builder.Leads` — a later point of a graph in the making;
* `StmtLowered.leads`, `BodyLowered.leads` — under a false condition a statement amounts to its
  declarations.
-/

namespace ScriptGraph

open Lowering Builder Relation

/-! ## Declarations of a text -/

namespace Stmt

mutual

/-- The declarations of a statement, in its branches too. -/
def declarations : Stmt → List Declaration
  | .declare d _ => [d]
  | .branch _ thenBody none _ => bodyDeclarations thenBody
  | .branch _ thenBody (some elseBody) _ => bodyDeclarations thenBody ++ bodyDeclarations elseBody
  | _ => []

/-- The declarations of the statements of a body. -/
def bodyDeclarations : List Stmt → List Declaration
  | [] => []
  | s :: rest => s.declarations ++ bodyDeclarations rest

end

mutual

theorem map_declarations : ∀ s : Stmt, s.declarations.map (·.name.text) = s.declared
  | .declare d _ => rfl
  | .assign _ _ _ _ => rfl
  | .branch _ thenBody none _ => map_bodyDeclarations thenBody
  | .branch _ thenBody (some elseBody) _ => by
    rw [declarations, List.map_append, map_bodyDeclarations thenBody,
      map_bodyDeclarations elseBody, declared]
  | .ret _ _ => rfl
  | .call _ _ _ _ => rfl

/-- The names that a body declares are those of its declarations. -/
theorem map_bodyDeclarations :
    ∀ body : List Stmt, (bodyDeclarations body).map (·.name.text) = bodyDeclared body
  | [] => rfl
  | s :: rest => by
    rw [bodyDeclarations, List.map_append, map_declarations s, map_bodyDeclarations rest,
      bodyDeclared]

end

end Stmt

/-- The bodies of the branches of the entry method, each before those inside of it. -/
def Program.branches (p : Program) : List (List Stmt) :=
  p.entry?.elim [] fun m => Stmt.bodiesIn m.body

/-! ## Declarations in a view -/

section

variable {V : Type}

/-- A declaration binds its name to its initial value, or to zero if it is public. -/
def View.declare (rt : Runtime V) (t : Builtins) (refOf : String → Option Ref) (s : View V)
    (d : Declaration) : Option (View V) :=
  match d.init with
  | none => some (s.bind d.name.text (rt.number (.ofInt 0)))
  | some init => (init.eval rt t (s.look refOf)).map (s.bind d.name.text)

variable {rt : Runtime V} {t : Builtins} {refOf : String → Option Ref}

theorem View.declare_eq_some {s s' : View V} {d : Declaration}
    (h : s.declare rt t refOf d = some s') : ∃ v, s' = s.bind d.name.text v := by
  rw [View.declare] at h
  split at h
  · exact ⟨_, (Option.some.inj h).symm⟩
  · obtain ⟨v, -, hv⟩ := Option.map_eq_some_iff.mp h
    exact ⟨v, hv.symm⟩

/-- Declarations change nothing but their names, and these have values behind them. -/
theorem View.sameBut_of_foldlM {ds : List Declaration} {s s' : View V}
    (h : ds.foldlM (View.declare rt t refOf) s = some s') :
    View.SameBut (ds.map (·.name.text)) s s' ∧
      ∀ name ∈ ds.map (·.name.text), (s'.local? name).isSome = true := by
  induction ds generalizing s with
  | nil =>
    cases h
    exact ⟨.refl _ s', nofun⟩
  | cons d ds ih =>
    obtain ⟨s₁, h₁, h⟩ := Option.bind_eq_some_iff.mp h
    obtain ⟨v, rfl⟩ := View.declare_eq_some h₁
    obtain ⟨hsame, hsome⟩ := ih h
    refine ⟨(View.SameBut.bind s d.name.text v).trans hsame, fun name hn => ?_⟩
    by_cases hm : name ∈ ds.map (·.name.text)
    · exact hsome name hm
    · -- no later declaration has the name
      have he : name = d.name.text := (List.mem_cons.mp hn).resolve_right hm
      rw [hsame.local? name hm, he, View.bind_self]
      rfl

end

/-! ## Names that stood for variables -/

namespace Builder

/-- A later point of a method: no variable was declared, no name has come to stand for one, and the
variables that were written since are those for which a name stood. -/
structure Follows (b b' : Builder) : Prop where
  globals : b'.graph.globals = b.graph.globals
  shown : ∀ name ref, b'.scope.globalRef? name = some ref → b.scope.globalRef? name = some ref
  stores : ∀ n ∈ b'.graph.nodes, n.Stores →
    n ∈ b.graph.nodes ∨ ∃ name, b.scope.globalRef? name = some n.linked

namespace Follows

variable {b b₁ b₂ : Builder}

theorem refl (b : Builder) : b.Follows b :=
  ⟨rfl, fun _ _ h => h, fun _ hn _ => .inl hn⟩

theorem trans (h : b.Follows b₁) (h' : b₁.Follows b₂) : b.Follows b₂ := by
  refine ⟨h'.globals.trans h.globals, fun name ref hr => h.shown name ref (h'.shown name ref hr),
    fun n hn hs => ?_⟩
  rcases h'.stores n hn hs with hn | ⟨name, hr⟩
  · exact h.stores n hn hs
  · exact .inr ⟨name, h.shown name _ hr⟩

/-- Nothing is bound, declared or written. -/
theorem same (hs : b₁.scope = b.scope) (hg : b₁.graph.globals = b.graph.globals)
    (hn : ∀ n ∈ b₁.graph.nodes, n.Stores → n ∈ b.graph.nodes) : b.Follows b₁ := by
  refine ⟨hg, fun name ref hr => ?_, fun n hm hst => .inl (hn n hm hst)⟩
  rw [hs] at hr
  exact hr

/-- A name that is bound to a wire stands for no variable. -/
theorem bindWire (b : Builder) (name : String) (w : Wire) : b.Follows (b.bind name (.wire w)) := by
  refine ⟨rfl, fun other ref hr => ?_, fun n hn _ => .inl hn⟩
  by_cases ho : other = name
  · subst ho
    have hnone := Scope.globalRef?_insert_self b.scope other (.wire w)
    exact nomatch hnone.symm.trans hr
  · exact (Scope.globalRef?_insert_of_ne ho b.scope (.wire w)).symm.trans hr

/-- Storing a value writes the variable for which the name stands, or binds the name. -/
theorem store {name : String} {binding : Binding} (hb : b.scope.get? name = some binding)
    (value : Wire) (last : Ref) : b.Follows (b.afterStore name value last binding) := by
  cases binding with
  | wire wire => exact bindWire b name value
  | parameter type pin => exact bindWire b name value
  | globalVar type ref =>
    refine ⟨rfl, fun _ _ h => h, fun n hn _ => ?_⟩
    rcases List.mem_append.mp hn with hn | hn
    · exact .inl hn
    · obtain rfl := List.mem_singleton.mp hn
      refine .inr ⟨name, ?_⟩
      rw [Scope.globalRef?, hb]
      rfl

end Follows

end Builder

/-- Expressions write nothing. -/
theorem ExprStep.stores {t : Builtins} {s s' : Site} (h : ExprStep t s s') {n : Node}
    (hn : n ∈ s'.builder.graph.nodes) (hs : n.Stores) : n ∈ s.builder.graph.nodes := by
  -- a new node belongs to no variable, or it reads one
  cases h with
  | note calls b event => exact hn
  | number calls b value => exact hn
  | node he hw =>
    rcases List.mem_append.mp hn with hn | hn
    · exact hn
    · obtain rfl := List.mem_singleton.mp hn
      exact absurd rfl hs.2
  | read hv =>
    rcases List.mem_append.mp hn with hn | hn
    · exact hn
    · obtain rfl := List.mem_singleton.mp hn
      have hread : Opcode.readGlobal = Opcode.writeGlobal := hs.1
      exact absurd hread (by decide)
  | openCall calls b => exact hn
  | argument hw => exact hn
  | closeCall ho =>
    rcases List.mem_append.mp hn with hn | hn
    · exact hn
    · obtain rfl := List.mem_singleton.mp hn
      exact absurd rfl hs.2

theorem ExprSteps.follows {t : Builtins} {s s' : Site} (h : ExprSteps t s s') :
    s.builder.Follows s'.builder := by
  induction h with
  | refl => exact .refl _
  | tail _ h ih =>
    obtain ⟨hscope, hglobals, -, -⟩ := h.frame
    exact ih.trans (.same hscope hglobals fun n hn hs => h.stores hn hs)

/-- Outputs of the method write nothing. -/
theorem OutputsLowered.follows {t : Builtins} {index : Nat} {values : List Expr} {b b' : Builder}
    (h : OutputsLowered t index values b b') (hs : b.Sound)
    (hi : index ≤ b.graph.outputs.length) : b.Follows b' := by
  induction h with
  | nil index b => exact .refl b
  | @cons index value values b b₁ b₂ w h hs' ih =>
    obtain ⟨h₁, hw⟩ := h.steps hs []
    have hi₁ : index ≤ b₁.graph.outputs.length := by
      rw [h₁.frame.2.2.2]
      exact hi
    have h₂ : Step t ⟨[], b₁⟩ _ := .output hw hi₁
    have hkeep : b₁.Follows ((b₁.ensureOutput index).connect
        (.data w.ref w.pin Ref.endpoint index)) :=
      .same rfl (b₁.ensureOutput_globals index) fun n hn _ => b₁.ensureOutput_nodes index ▸ hn
    exact (h₁.follows.trans hkeep).trans
      (ih (h₂.sound (hs.of_exprSteps h₁)) (Builder.lt_ensureOutput_outputs hi₁).1)

mutual

/-- Behind a statement no name has come to stand for a variable, and the variables that it writes are
those for which names stood. -/
theorem StmtLowered.follows {t : Builtins} {condition : Option Wire} {last last' : Ref} {s : Stmt}
    {b b' : Builder} (h : StmtLowered t condition last s b last' b') (hs : b.Sound)
    (hc : ∀ w ∈ condition, b.Yields w) : b.Follows b' := by
  cases h with
  | @declarePublic _ _ d _ _ type hp hi ht =>
    have hkeep : b.Follows (b.addLiteral d.name.text Place.publicValue (.ofInt 0)) :=
      .same rfl rfl fun n hn _ => hn
    exact hkeep.trans (.bindWire _ _ _)
  | declare hp hi he => exact (he.steps hs []).1.follows.trans (.bindWire _ _ _)
  | assign hb ha =>
    have hb₀ := hs.scope _ _ hb
    obtain ⟨h₁, hn, hp⟩ := ha.steps hs hb₀
    obtain ⟨h₂, -⟩ := steps_afterGating (t := t) (hb₀.mono h₁.le) hn hp
      fun w hw => (hc w hw).mono h₁.le
    have h₁₂ : ExprSteps t _ _ := h₁.trans h₂
    refine h₁₂.follows.trans (.store ?_ _ _)
    rw [h₁₂.frame.1]
    exact hb
  | branch he ht =>
    obtain ⟨h₁, hj, -⟩ := he.steps_then hs hc
    exact h₁.follows.trans (ht.follows (hs.of_exprSteps h₁) hj.some)
  | branchElse he ht hn hf =>
    obtain ⟨h₁, hj, hw⟩ := he.steps_then hs hc
    have hs₁ := hs.of_exprSteps h₁
    have h₂ := ht.steps hs₁ hj.some
    obtain ⟨h₃, hj'⟩ := steps_else (t := t) hn (hw.mono h₂.le)
      fun w hw => ((hc w hw).mono h₁.le).mono h₂.le
    have hs₃ := (h₂.sound hs₁).of_exprSteps h₃
    exact ((h₁.follows.trans (ht.follows hs₁ hj.some)).trans h₃.follows).trans
      (hf.follows hs₃ hj'.some)
  | @ret _ _ _ _ _ b₁ h =>
    have hkeep : b₁.Follows (b₁.connect (.execution last Ref.endpoint)) :=
      .same rfl rfl fun n hn _ => hn
    exact (h.follows hs (Nat.zero_le _)).trans hkeep
  | call h => exact (h.steps hs []).1.follows

theorem BodyLowered.follows {t : Builtins} {condition : Option Wire} {last last' : Ref}
    {body : List Stmt} {b b' : Builder} (h : BodyLowered t condition last body b last' b')
    (hs : b.Sound) (hc : ∀ w ∈ condition, b.Yields w) : b.Follows b' := by
  cases h with
  | nil => exact .refl b
  | cons h hr hs' =>
    have h₁ := h.steps hs hc
    exact (h.follows hs hc).trans
      (hs'.follows (h₁.sound hs) fun w hw => (hc w hw).mono h₁.le)

end

/-! ## Later points of a graph -/

variable {V : Type} {rt : Runtime V} {t : Builtins} {args : Nat → V} {σ : Ref → V}

namespace Builder

/-- No node has the id of the endpoint. -/
def Apart (b : Builder) : Prop :=
  ∀ n ∈ b.graph.nodes, n.ref ≠ Ref.endpoint

variable (rt args σ) in
/-- A later point of a graph: what had a value still has it. Unlike in `Runs`, outputs of the method
may have got connections. -/
structure Leads (b : Builder) (m : Memory V) (b' : Builder) (m' : Memory V) : Prop where
  live : b'.Live rt args σ m'
  named : b'.Named
  apart : b'.Apart
  next : b.next ≤ b'.next
  values : ∀ ref < b.next, ∀ pin,
    b'.graph.value? rt args m' ref pin = b.graph.value? rt args m ref pin
  globals : b'.graph.globals = b.graph.globals

variable {b b₁ b₂ : Builder} {m m₁ m₂ : Memory V} {s : View V}

theorem Leads.trans (h : Leads rt args σ b m b₁ m₁) (h' : Leads rt args σ b₁ m₁ b₂ m₂) :
    Leads rt args σ b m b₂ m₂ := by
  refine ⟨h'.live, h'.named, h'.apart, Int.le_trans h.next h'.next, fun ref hr pin => ?_,
    h'.globals.trans h.globals⟩
  rw [h'.values ref (Int.lt_of_lt_of_le hr h.next), h.values ref hr]

theorem Runs.leads (h : Runs rt args σ b m s b₁ m₁) (hl : b.Live rt args σ m) (ha : b.Apart) :
    Leads rt args σ b m b₁ m₁ := by
  refine ⟨h.live, h.named, fun n hn => ?_, h.carries.next, h.carries.values, h.globals⟩
  rcases h.carries.nodes n hn with hn | hn
  · exact ha n hn
  · exact Int.ne_of_gt (Int.lt_of_lt_of_le (Int.lt_trans (by decide) hl.next_pos) hn)

theorem Computes.leads (h : Computes rt args σ b.next b m b₁ m₁) (hl : b.Live rt args σ m)
    (hn : b.Named) (ha : b.Apart) : Leads rt args σ b m b₁ m₁ :=
  (h.runs hl hn).leads hl ha

theorem Holds.lead {w : Wire} {v : V} (h : b.Holds rt args m w v) (hl : b.Live rt args σ m)
    (hle : Leads rt args σ b m b₁ m₁) : b₁.Holds rt args m₁ w v :=
  (hle.values w.ref (hl.ref_lt h) w.pin).trans h

theorem Under.lead {condition : Option Wire} {truth : Bool}
    (h : b.Under rt args m condition truth) (hl : b.Live rt args σ m)
    (hle : Leads rt args σ b m b₁ m₁) : b₁.Under rt args m₁ condition truth := by
  cases condition with
  | none => exact h
  | some w =>
    obtain ⟨v, hv, ht⟩ := h
    exact ⟨v, hv.lead hl hle, ht⟩

/-- Connections that lead to no node change nothing. -/
theorem Live.connect (hl : b.Live rt args σ m) {c : Connection}
    (hf : ∀ ref, ref ≠ Ref.endpoint → (b.connect c).graph.feedsOf ref = b.graph.feedsOf ref)
    (hn : b.Named) (ha : b.Apart) :
    Leads rt args σ b m (b.connect c) m ∧ (b.connect c).view rt args m = b.view rt args m := by
  have hlt : Ref.endpoint < b.next := Int.lt_trans (by decide) hl.next_pos
  refine ⟨⟨⟨?_, hl.next_pos, hl.nodes, fun ref hr => ?_, hl.blank, hl.scope, hl.linked⟩,
    ⟨hn.latest, hn.bound, hn.distinct⟩, ha, Int.le_refl _, fun _ _ _ => rfl, rfl⟩, rfl⟩
  · exact Graph.run_keep (g := b.graph) rfl List.prefix_rfl (fun n hm => hf n.ref (ha n hm)) hl.run
  · rw [hf ref (Int.ne_of_gt (Int.lt_of_lt_of_le hlt hr))]
    exact hl.fresh ref hr

end Builder

/-- A return changes no name and no variable. -/
theorem OutputsLowered.leads (hrt : rt.Lawful t) {index : Nat} {values : List Expr} {b b' : Builder}
    {m : Memory V} (h : OutputsLowered t index values b b') (hl : b.Live rt args σ m)
    (hn : b.Named) (ha : b.Apart) :
    ∃ m', Leads rt args σ b m b' m' ∧ b'.view rt args m' = b.view rt args m := by
  induction h generalizing m with
  | nil index b => exact ⟨m, (Computes.refl hl b.next).leads hl hn ha, rfl⟩
  | @cons index value values b b₁ b₂ w h hs ih =>
    obtain ⟨m₁, v, hc₁, -, -⟩ := h.computes hrt hl
    have hc₂ := hc₁.live.ensureOutput index
    have hc₁₂ := hc₁.trans hc₂ hc₁.carries.next
    have hle₁₂ := hc₁₂.leads hl hn ha
    obtain ⟨hle₃, hview₃⟩ := hle₁₂.live.connect
      (fun ref hr => (b₁.ensureOutput index).feedsOf_connect_of_ne w hr index) hle₁₂.named hle₁₂.apart
    obtain ⟨m₄, hle₄, hview₄⟩ := ih hle₃.live hle₃.named hle₃.apart
    refine ⟨m₄, (hle₁₂.trans hle₃).trans hle₄, ?_⟩
    rw [hview₄, hview₃, hc₁₂.view_eq hl]

mutual

/-- **Under a false condition a statement amounts to its declarations.** Under any condition a
statement leads to a later point of the graph. -/
theorem StmtLowered.leads (hrt : rt.Lawful t) {condition : Option Wire} {last last' : Ref}
    {s : Stmt} {b b' : Builder} {m : Memory V} {truth : Bool}
    (h : StmtLowered t condition last s b last' b') (hl : b.Live rt args σ m) (hn : b.Named)
    (ha : b.Apart) (hc : b.Under rt args m condition truth) :
    ∃ m', Leads rt args σ b m b' m' ∧ (truth = false →
      s.declarations.foldlM (View.declare rt t b.graph.latestRef?) (b.view rt args m) =
        some (b'.view rt args m')) := by
  have hlook := hl.look_eq hn
  cases h with
  | @declarePublic _ _ d span _ type hp hi ht =>
    obtain ⟨hc₁, hv⟩ := hl.addLiteral d.name.text Place.publicValue (.ofInt 0)
    have hbind := hc₁.live.bindWire (hc₁.named hn) (hv (.ofPublic type b.next) rfl) d.name.text
    rw [hc₁.view_eq hl] at hbind
    refine ⟨m, ((hc₁.runs hl hn).trans hbind).leads hl ha, fun _ => ?_⟩
    rw [hbind.view]
    simp [Stmt.declarations, View.declare, hi]
  | @declare _ _ d span init _ b₁ w hp hi he =>
    obtain ⟨m₁, v, hc₁, hv, heval⟩ := he.computes hrt hl
    have hbind := hc₁.live.bindWire (hc₁.named hn) hv d.name.text
    rw [hc₁.view_eq hl] at hbind
    refine ⟨m₁, ((hc₁.runs hl hn).trans hbind).leads hl ha, fun _ => ?_⟩
    rw [hlook] at heval
    rw [hbind.view]
    simp [Stmt.declarations, View.declare, hi, heval]
  | @assign _ _ target op value span _ b₁ binding new previous hb hassigned =>
    obtain ⟨m₁, old, v, x, hc₁, hx, hp, hold, -, -⟩ := hassigned.computes hrt hl hb
    have hb₁ : b₁.scope.get? target.text = some binding := by
      rw [hc₁.scope]
      exact hb
    have hold₁ : b₁.bound? rt args m₁ binding = some old :=
      (bound?_carry hl hb hc₁.carries hc₁.store).trans hold
    obtain ⟨m₂, hc₂, hkept⟩ := hc₁.live.gate hrt hb₁ (hc.carry hl hc₁.carries) hx hold₁ hp
    have hc₁₂ := hc₁.trans hc₂ hc₁.carries.next
    have hb₂ : (b₁.afterGating binding new previous condition).scope.get? target.text =
        some binding := by
      rw [hc₁₂.scope]
      exact hb
    obtain ⟨m₃, hstore⟩ := hc₁₂.live.store (hc₁₂.named hn) hb₂ hkept last
    rw [hc₁₂.view_eq hl, funext (Graph.latestRef?_congr hc₁₂.globals)] at hstore
    refine ⟨m₃, ((hc₁₂.runs hl hn).trans hstore).leads hl ha, fun hfalse => ?_⟩
    -- the gate has let the old value through
    have hlooked : (b.view rt args m).look b.graph.latestRef? target.text = some old := by
      rw [← hlook, Builder.look, hb, Option.bind_some, hold]
    rw [hstore.view, hfalse, if_neg Bool.false_ne_true, View.assign_self hlooked]
    rfl
  | @branch _ _ _ test thenBody span _ b₁ b₂ w he hthen =>
    obtain ⟨m₁, v, hc₁, hv, -⟩ := he.computes hrt hl
    obtain ⟨m₂, hc₂, hunder⟩ := hc₁.live.conjunction hrt (hc.carry hl hc₁.carries) hv
    have hc₁₂ := hc₁.trans hc₂ hc₁.carries.next
    have hle₂ := hc₁₂.leads hl hn ha
    obtain ⟨m₃, hle₃, hfold⟩ := hthen.leads hrt hle₂.live hle₂.named hle₂.apart hunder
    refine ⟨m₃, hle₂.trans hle₃, fun hfalse => ?_⟩
    rw [hc₁₂.view_eq hl, funext (Graph.latestRef?_congr hc₁₂.globals)] at hfold
    exact hfold (by rw [hfalse, Bool.false_and])
  | @branchElse _ _ last₁ _ test thenBody elseBody span _ b₁ b₂ b₃ _ w he hthen hnot helse =>
    obtain ⟨m₁, v, hc₁, hv, -⟩ := he.computes hrt hl
    obtain ⟨m₂, hc₂, hunder⟩ := hc₁.live.conjunction hrt (hc.carry hl hc₁.carries) hv
    have hc₁₂ := hc₁.trans hc₂ hc₁.carries.next
    have hle₂ := hc₁₂.leads hl hn ha
    obtain ⟨m₃, hle₃, hfold⟩ := hthen.leads hrt hle₂.live hle₂.named hle₂.apart hunder
    have hv₃ : b₂.Holds rt args m₃ w v := (hv.carry hc₁.live hc₂.carries).lead hle₂.live hle₃
    have hle₀₃ := hle₂.trans hle₃
    subst hnot
    obtain ⟨m₄, hc₄, hw⟩ := hle₃.live.operate Opcode.not (placeFor w.isPublic) (.cons hv₃ .nil)
    have hw₄ : Builder.Holds rt args _ m₄ (.ofRef .bool b₂.next) _ := hw .bool 0
    have hle₄ := hc₄.leads hle₃.live hle₃.named hle₃.apart
    obtain ⟨m₅, hc₅, hunder₅⟩ :=
      hc₄.live.conjunction hrt (hc.lead hl (hle₀₃.trans hle₄)) hw₄
    have hc₄₅ := hc₄.trans hc₅ hc₄.carries.next
    have hle₅ := hc₄₅.leads hle₃.live hle₃.named hle₃.apart
    obtain ⟨m₆, hle₆, hfold'⟩ := helse.leads hrt hle₅.live hle₅.named hle₅.apart hunder₅
    refine ⟨m₆, (hle₀₃.trans hle₅).trans hle₆, fun hfalse => ?_⟩
    rw [hc₁₂.view_eq hl, funext (Graph.latestRef?_congr hc₁₂.globals)] at hfold
    rw [hc₄₅.view_eq hle₃.live,
      funext (Graph.latestRef?_congr (hle₀₃.trans hle₅).globals)] at hfold'
    rw [Stmt.declarations, List.foldlM_append, hfold (by rw [hfalse, Bool.false_and])]
    exact hfold' (by rw [hfalse, Bool.false_and])
  | @ret _ _ values span _ b₁ h =>
    obtain ⟨m₁, hle₁, hview₁⟩ := h.leads hrt hl hn ha
    obtain ⟨hle₂, hview₂⟩ := hle₁.live.connect (c := .execution last Ref.endpoint)
      (fun ref _ => Graph.feedsOf_execution rfl ref) hle₁.named hle₁.apart
    refine ⟨m₁, hle₁.trans hle₂, fun _ => ?_⟩
    rw [hview₂, hview₁]
    rfl
  | call h =>
    obtain ⟨m₁, v, hc₁, -, -⟩ := h.computes hrt hl
    refine ⟨m₁, hc₁.leads hl hn ha, fun _ => ?_⟩
    rw [hc₁.view_eq hl]
    rfl

/-- So do statements one after another. -/
theorem BodyLowered.leads (hrt : rt.Lawful t) {condition : Option Wire} {last last' : Ref}
    {body : List Stmt} {b b' : Builder} {m : Memory V} {truth : Bool}
    (h : BodyLowered t condition last body b last' b') (hl : b.Live rt args σ m) (hn : b.Named)
    (ha : b.Apart) (hc : b.Under rt args m condition truth) :
    ∃ m', Leads rt args σ b m b' m' ∧ (truth = false →
      (Stmt.bodyDeclarations body).foldlM (View.declare rt t b.graph.latestRef?)
        (b.view rt args m) = some (b'.view rt args m')) := by
  cases h with
  | nil => exact ⟨m, (Computes.refl hl b.next).leads hl hn ha, fun _ => rfl⟩
  | cons h hr hs =>
    obtain ⟨m₁, hle₁, hfold₁⟩ := h.leads hrt hl hn ha hc
    obtain ⟨m₂, hle₂, hfold₂⟩ :=
      hs.leads hrt hle₁.live hle₁.named hle₁.apart (hc.lead hl hle₁)
    refine ⟨m₂, hle₁.trans hle₂, fun hfalse => ?_⟩
    rw [Stmt.bodyDeclarations, List.foldlM_append, hfold₁ hfalse]
    rw [funext (Graph.latestRef?_congr hle₁.globals)] at hfold₂
    exact hfold₂ hfalse

end

end ScriptGraph
