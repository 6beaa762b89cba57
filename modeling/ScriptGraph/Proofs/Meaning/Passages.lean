import ScriptGraph.Proofs.Lowering.ExecutionChain
import ScriptGraph.Proofs.Meaning.Branches

/-!
# Ways through branches

The body of a branch is lowered between two points of the graph in the making. These points are
found by lowering up to them, for each branch of a program, at whatever depth. An evaluation of the
whole graph comes past both, so that it can be said what a name means in front of the branch and
behind it.

* `Passage`, `Program.passages` — the ways through the branches of a program;
* `Builder.Stage` — a point of a lowering, with all that is known there;
* `Stmt.crosses` — the ways through the branches of a statement run between such points;
* `Passage.Untaken`, `Passage.Hides` — what is behind a branch that was not taken, and which names
  stand for variables there in any case.
-/

namespace ScriptGraph

open Lowering Builder Relation

/-! ## Ways through branches -/

/-- The way through a branch while a program is lowered. -/
structure Passage where
  /-- the condition of the branch, and of those around it -/
  condition : Wire
  /-- the statements of the branch -/
  body : List Stmt
  /-- the builder in front of them -/
  before : Builder
  /-- the builder behind them -/
  after : Builder

namespace Stmt

mutual

/-- The ways through the branches of a statement that is lowered from a builder on, under a condition
and behind the node `last` of the chain of execution; in the order of `bodies`. -/
def passages (t : Builtins) (condition : Option Wire) (last : Ref) (b : Builder) :
    Stmt → List Passage
  | .branch test thenBody elseBody _ =>
    match (do let wire ← expr t test; return (wire, ← conjunction condition wire)) b with
    | .error _ _ => []
    | .ok (wire, whenTrue) b₁ =>
      match Lowering.body t (some whenTrue) last thenBody b₁ with
      | .error _ _ => []
      | .ok last₁ b₂ =>
        ⟨whenTrue, thenBody, b₁, b₂⟩ :: bodyPassages t (some whenTrue) last b₁ thenBody ++
          match elseBody with
          | none => []
          | some elseBody =>
            match (do conjunction condition (← unary Opcode.not wire)) b₂ with
            | .error _ _ => []
            | .ok whenFalse b₃ =>
              match Lowering.body t (some whenFalse) last₁ elseBody b₃ with
              | .error _ _ => []
              | .ok _ b₄ =>
                ⟨whenFalse, elseBody, b₃, b₄⟩ ::
                  bodyPassages t (some whenFalse) last₁ b₃ elseBody
  | _ => []

/-- The ways through the branches of statements one after another. -/
def bodyPassages (t : Builtins) (condition : Option Wire) (last : Ref) (b : Builder) :
    List Stmt → List Passage
  | [] => []
  | s :: rest =>
    s.passages t condition last b ++
      match stmt t condition last s b with
      | .error _ _ => []
      | .ok last₁ b₁ => bodyPassages t condition last₁ b₁ rest

end

end Stmt

/-- The ways through the branches of a program, with ids from `first` on. -/
def Program.passages (p : Program) (t : Builtins) (first : Ref) : List Passage :=
  match p.entry? with
  | none => []
  | some m =>
    match (do declareGlobals p.globals; parameters 0 m.params) (Builder.start first) with
    | .error _ _ => []
    | .ok _ b => Stmt.bodyPassages t none Ref.endpoint b m.body

/-! ### Successful lowerings -/

section

variable {t : Builtins} {condition : Option Wire} {last last' : Ref} {b b' : Builder}

/-- The ways through a choice with one body. -/
theorem passages_branch {test : Expr} {thenBody : List Stmt} {span : Span} {w : Wire}
    {last₁ : Ref} {b₁ b₂ : Builder} (h₁ : expr t test b = .ok w b₁)
    (h₂ : Lowering.body t (some (b₁.conjoined condition w)) last thenBody
      (b₁.afterConjunction condition w) = .ok last₁ b₂) :
    Stmt.passages t condition last b (.branch test thenBody none span) =
      ⟨b₁.conjoined condition w, thenBody, b₁.afterConjunction condition w, b₂⟩ ::
        Stmt.bodyPassages t (some (b₁.conjoined condition w)) last
          (b₁.afterConjunction condition w) thenBody := by
  have h : (do let wire ← expr t test; return (wire, ← conjunction condition wire)) b =
      .ok (w, b₁.conjoined condition w) (b₁.afterConjunction condition w) :=
    bind_ok.mpr ⟨w, b₁, h₁, bind_ok.mpr ⟨_, _, conjunction_run condition w b₁, rfl⟩⟩
  simp only [Stmt.passages, h, h₂, List.append_nil]

/-- The ways through a choice with two bodies. -/
theorem passages_branchElse {test : Expr} {thenBody elseBody : List Stmt} {span : Span} {w : Wire}
    {last₁ last₂ : Ref} {b₁ b₂ b₃ b₄ : Builder} (h₁ : expr t test b = .ok w b₁)
    (h₂ : Lowering.body t (some (b₁.conjoined condition w)) last thenBody
      (b₁.afterConjunction condition w) = .ok last₁ b₂)
    (hn : b₃ = b₂.operate Opcode.not (placeFor w.isPublic) [w])
    (h₃ : Lowering.body t (some (b₃.conjoined condition (.ofRef .bool b₂.next))) last₁ elseBody
      (b₃.afterConjunction condition (.ofRef .bool b₂.next)) = .ok last₂ b₄) :
    Stmt.passages t condition last b (.branch test thenBody (some elseBody) span) =
      Stmt.passages t condition last b (.branch test thenBody none span) ++
        ⟨b₃.conjoined condition (.ofRef .bool b₂.next), elseBody,
          b₃.afterConjunction condition (.ofRef .bool b₂.next), b₄⟩ ::
          Stmt.bodyPassages t (some (b₃.conjoined condition (.ofRef .bool b₂.next))) last₁
            (b₃.afterConjunction condition (.ofRef .bool b₂.next)) elseBody := by
  have h : (do let wire ← expr t test; return (wire, ← conjunction condition wire)) b =
      .ok (w, b₁.conjoined condition w) (b₁.afterConjunction condition w) :=
    bind_ok.mpr ⟨w, b₁, h₁, bind_ok.mpr ⟨_, _, conjunction_run condition w b₁, rfl⟩⟩
  have hnot : unary Opcode.not w b₂ = .ok (.ofRef .bool b₂.next) b₃ := hn ▸ rfl
  have h' : (do conjunction condition (← unary Opcode.not w)) b₂ =
      .ok (b₃.conjoined condition (.ofRef .bool b₂.next))
        (b₃.afterConjunction condition (.ofRef .bool b₂.next)) :=
    bind_ok.mpr ⟨_, b₃, hnot, conjunction_run condition _ b₃⟩
  simp only [Stmt.passages, h, h₂, h', h₃, List.append_nil]

/-- The ways through statements one after another. -/
theorem bodyPassages_cons {s : Stmt} {rest : List Stmt} {last₁ : Ref} {b₁ : Builder}
    (h : stmt t condition last s b = .ok last₁ b₁) :
    Stmt.bodyPassages t condition last b (s :: rest) =
      s.passages t condition last b ++ Stmt.bodyPassages t condition last₁ b₁ rest := by
  simp only [Stmt.bodyPassages, h]

end

/-! ## Points of a lowering -/

variable {V : Type} {rt : Runtime V} {t : Builtins} {args : Nat → V} {σ : Ref → V} {first : Ref}

namespace Builder

variable (rt t args σ) in
/-- A later point of a lowering. -/
structure Reaches (b : Builder) (m : Memory V) (b' : Builder) (m' : Memory V) : Prop where
  leads : Leads rt args σ b m b' m'
  steps : Steps t ⟨[], b⟩ ⟨[], b'⟩
  follows : b.Follows b'
  shows : (∃ hidden, b.Shows hidden) → ∃ hidden, b'.Shows hidden

variable (rt t args σ first) in
/-- A point of a lowering under a condition: the graph so far can be evaluated, and in it the
condition has a value. -/
structure Stage (condition : Option Wire) (b : Builder) (m : Memory V) : Prop where
  valid : Site.Valid t first ⟨[], b⟩
  live : b.Live rt args σ m
  named : b.Named
  shows : ∃ hidden, b.Shows hidden
  yields : ∀ w ∈ condition, b.Yields w
  under : ∃ truth, b.Under rt args m condition truth

variable {b b₁ b₂ : Builder} {m m₁ m₂ : Memory V} {condition : Option Wire} {w : Wire} {v : V}

theorem Reaches.trans (h : Reaches rt t args σ b m b₁ m₁) (h' : Reaches rt t args σ b₁ m₁ b₂ m₂) :
    Reaches rt t args σ b m b₂ m₂ :=
  ⟨h.leads.trans h'.leads, ReflTransGen.trans h.steps h'.steps, h.follows.trans h'.follows,
    fun hs => h'.shows (h.shows hs)⟩

namespace Stage

theorem sound (h : Stage rt t args σ first condition b m) : b.Sound :=
  h.valid.sound

theorem apart (h : Stage rt t args σ first condition b m) : b.Apart :=
  fun _ hn => h.valid.node_ne_endpoint hn

/-- The condition of a point still has its value at a later one. -/
theorem reach (h : Stage rt t args σ first condition b m)
    (hr : Reaches rt t args σ b m b₁ m₁) : Stage rt t args σ first condition b₁ m₁ := by
  obtain ⟨truth, hu⟩ := h.under
  have hle : b.Le b₁ := (Steps.le hr.steps :)
  exact ⟨Steps.valid hr.steps h.valid, hr.leads.live, hr.leads.named, hr.shows h.shows,
    fun w hw => (h.yields w hw).mono hle, truth, hu.lead h.live hr.leads⟩

/-- Something is computed. -/
theorem compute (h : Stage rt t args σ first condition b m)
    (hc : Computes rt args σ b.next b m b₁ m₁) (hs : ExprSteps t ⟨[], b⟩ ⟨[], b₁⟩) :
    Reaches rt t args σ b m b₁ m₁ :=
  ⟨hc.leads h.live h.named h.apart, hs.steps, hs.follows,
    fun ⟨hidden, hv⟩ => ⟨hidden, hv.same hc.scope hc.globals⟩⟩

theorem expr (hrt : rt.Lawful t) (h : Stage rt t args σ first condition b m) {e : Expr}
    (he : ExprLowered t e b w b₁) :
    ∃ m₁ v, Reaches rt t args σ b m b₁ m₁ ∧ b₁.Holds rt args m₁ w v ∧ b₁.Yields w := by
  obtain ⟨m₁, v, hc, hv, -⟩ := he.computes hrt h.live
  obtain ⟨hs, hw⟩ := he.steps h.sound []
  exact ⟨m₁, v, h.compute hc hs, hv, hw⟩

/-- A negated test has a value too. -/
theorem negate (h : Stage rt t args σ first condition b m) (hv : b.Holds rt args m w v)
    (hw : b.Yields w) (hb : b₁ = b.operate Opcode.not (placeFor w.isPublic) [w]) :
    ∃ m₁ v₁, Reaches rt t args σ b m b₁ m₁ ∧ b₁.Holds rt args m₁ (.ofRef .bool b.next) v₁ ∧
      b₁.Yields (.ofRef .bool b.next) := by
  subst hb
  obtain ⟨m₁, hc, hv₁⟩ := h.live.operate Opcode.not (placeFor w.isPublic) (.cons hv .nil)
  have hs : ExprSteps t ⟨[], b⟩ ⟨[], b.operate Opcode.not (placeFor w.isPublic) [w]⟩ :=
    .single (.node (.not w) (by simpa using hw))
  exact ⟨m₁, _, h.compute hc hs, hv₁ .bool 0, b.yields_operate _ _ _ _ _⟩

/-- In front of a branch, its condition has a value. -/
theorem conjoin (hrt : rt.Lawful t) (h : Stage rt t args σ first condition b m)
    (hv : b.Holds rt args m w v) (hw : b.Yields w) :
    ∃ m₁, Reaches rt t args σ b m (b.afterConjunction condition w) m₁ ∧
      Stage rt t args σ first (some (b.conjoined condition w)) (b.afterConjunction condition w)
        m₁ := by
  obtain ⟨truth, hu⟩ := h.under
  obtain ⟨m₁, hc, hu₁⟩ := h.live.conjunction hrt hu hv
  obtain ⟨hs, hj⟩ := steps_afterConjunction (t := t) h.yields hw
  have hr := h.compute hc hs
  have h₁ := h.reach hr
  exact ⟨m₁, hr, h₁.valid, h₁.live, h₁.named, h₁.shows, hj.some, _, hu₁⟩

/-- Behind statements there is a point under the same condition. -/
theorem body (hrt : rt.Lawful t) (h : Stage rt t args σ first condition b m) {last last' : Ref}
    {body : List Stmt} (hb : BodyLowered t condition last body b last' b₁) :
    ∃ m₁, Reaches rt t args σ b m b₁ m₁ := by
  obtain ⟨truth, hu⟩ := h.under
  obtain ⟨m₁, hle, -⟩ := hb.leads hrt h.live h.named h.apart hu
  exact ⟨m₁, hle, hb.steps h.sound h.yields, hb.follows h.sound h.yields,
    fun ⟨hidden, hv⟩ => ⟨_, (hb.shows h.sound h.yields hv).2⟩⟩

theorem stmt (hrt : rt.Lawful t) (h : Stage rt t args σ first condition b m) {last last' : Ref}
    {s : Stmt} (hs : StmtLowered t condition last s b last' b₁) :
    ∃ m₁, Reaches rt t args σ b m b₁ m₁ := by
  obtain ⟨truth, hu⟩ := h.under
  obtain ⟨m₁, hle, -⟩ := hs.leads hrt h.live h.named h.apart hu
  exact ⟨m₁, hle, hs.steps h.sound h.yields, hs.follows h.sound h.yields,
    fun ⟨hidden, hv⟩ => ⟨_, (hs.shows h.sound h.yields hv).2⟩⟩

end Stage

end Builder

/-! ## Crossing a branch -/

variable (rt t args σ first) in
/-- A way through a branch with the given statements: from a point where its condition has a value
through the branch, and on to a later point. -/
structure Passage.Crosses (b' : Builder) (q : Passage) (body : List Stmt) : Prop where
  body : q.body = body
  stage : ∃ m, Stage rt t args σ first (some q.condition) q.before m
  lowered : ∃ last last', BodyLowered t (some q.condition) last q.body q.before last' q.after
  steps : Steps t ⟨[], q.after⟩ ⟨[], b'⟩
  follows : q.after.Follows b'

theorem Passage.Crosses.reach {q : Passage} {body : List Stmt} {b b₁ : Builder} {m m₁ : Memory V}
    (h : q.Crosses rt t args σ first b body) (hr : Reaches rt t args σ b m b₁ m₁) :
    q.Crosses rt t args σ first b₁ body :=
  ⟨h.body, h.stage, h.lowered, ReflTransGen.trans h.steps hr.steps, h.follows.trans hr.follows⟩

mutual

/-- **The ways through the branches of a statement.** There is one for each branch, at whatever
depth. -/
theorem Stmt.crosses (hrt : rt.Lawful t) : ∀ (s : Stmt) {condition : Option Wire}
    {last last' : Ref} {b b' : Builder} {m : Memory V},
    Lowering.stmt t condition last s b = .ok last' b' →
      Stage rt t args σ first condition b m →
        List.Forall₂ (Passage.Crosses rt t args σ first b') (s.passages t condition last b)
          s.bodies
  | .declare d span, _, _, _, _, _, _, _, _ => .nil
  | .assign target op value span, _, _, _, _, _, _, _, _ => .nil
  | .ret values span, _, _, _, _, _, _, _, _ => .nil
  | .call receiver member es span, _, _, _, _, _, _, _, _ => .nil
  | .branch test thenBody elseBody span, condition, last, last', b, b', m, h, hst => by
    obtain ⟨w, b₁, last₁, b₂, h₁, h₂, hrest⟩ := branch_ok h
    have hthen := BodyLowered.of_run thenBody h₂
    obtain ⟨m₁, v, hr₁, hv, hw⟩ := hst.expr hrt (ExprLowered.of_run test h₁)
    obtain ⟨m₂, hr₂, hst₂⟩ := (hst.reach hr₁).conjoin hrt hv hw
    have hfirst : List.Forall₂ (Passage.Crosses rt t args σ first b₂)
        (Stmt.passages t condition last b (.branch test thenBody none span))
        (thenBody :: Stmt.bodiesIn thenBody) := by
      rw [passages_branch h₁ h₂]
      exact .cons ⟨rfl, ⟨m₂, hst₂⟩, ⟨_, _, hthen⟩, .refl, .refl b₂⟩
        (Stmt.bodyCrosses hrt thenBody h₂ hst₂)
    cases elseBody with
    | none =>
      obtain ⟨rfl, rfl⟩ := hrest
      exact hfirst
    | some elseBody =>
      -- the test keeps its value behind the first branch, whatever that did
      obtain ⟨m₃, hr₃⟩ := hst₂.body hrt hthen
      have hr₂₃ := hr₂.trans hr₃
      have hle : b₁.Le b₂ := (Steps.le hr₂₃.steps :)
      have hst₃ := (hst.reach hr₁).reach hr₂₃
      obtain ⟨m₄, v₄, hr₄, hv₄, hw₄⟩ := hst₃.negate
        (hv.lead hr₁.leads.live hr₂₃.leads) (hw.mono hle) rfl
      obtain ⟨m₅, hr₅, hst₅⟩ := (hst₃.reach hr₄).conjoin hrt hv₄ hw₄
      have helse := BodyLowered.of_run elseBody hrest
      obtain ⟨m₆, hr₆⟩ := hst₅.body hrt helse
      rw [passages_branchElse h₁ h₂ rfl hrest, Stmt.bodies]
      refine List.rel_append (hfirst.imp fun q body hq => hq.reach ((hr₄.trans hr₅).trans hr₆)) ?_
      exact .cons ⟨rfl, ⟨m₅, hst₅⟩, ⟨_, _, helse⟩, .refl, .refl b'⟩
        (Stmt.bodyCrosses hrt elseBody hrest hst₅)

theorem Stmt.bodyCrosses (hrt : rt.Lawful t) : ∀ (body : List Stmt) {condition : Option Wire}
    {last last' : Ref} {b b' : Builder} {m : Memory V},
    Lowering.body t condition last body b = .ok last' b' →
      Stage rt t args σ first condition b m →
        List.Forall₂ (Passage.Crosses rt t args σ first b')
          (Stmt.bodyPassages t condition last b body) (Stmt.bodiesIn body)
  | [], _, _, _, _, _, _, _, _ => .nil
  | s :: rest, condition, last, last', b, b', m, h, hst => by
    obtain ⟨last₁, b₁, h₁, h₂⟩ := body_cons_ok h
    obtain ⟨m₁, hr₁⟩ := hst.stmt hrt (StmtLowered.of_run s h₁)
    have hst₁ := hst.reach hr₁
    obtain ⟨m₂, hr₂⟩ := hst₁.body hrt (BodyLowered.of_run rest h₂)
    rw [bodyPassages_cons h₁, Stmt.bodiesIn]
    exact List.rel_append ((Stmt.crosses hrt s h₁ hst).imp fun q body hq => hq.reach hr₂)
      (Stmt.bodyCrosses hrt rest h₂ hst₁)

end

/-! ## Programs -/

/-- Behind the declarations and the parameters there is no condition. -/
theorem stage_start {ds : List Declaration} {ps : List Parameter} {b₁ b₂ : Builder} (hf : 1 ≤ first)
    (hg : GlobalsLowered ds (Builder.start first) b₁) (hp : ParamsLowered 0 ps b₁ b₂) :
    Stage rt t args σ first none b₂ (Memory.start σ) := by
  have h₁ : Steps t _ _ := hg.steps
  have h₂ : Steps t _ _ := hp.steps (by rw [hg.graph_eq]; rfl)
  have hvalid : Site.Valid t first ⟨[], b₂⟩ := Steps.valid (h₁.trans h₂) (Site.valid_start t hf)
  have hd : b₂.graph.refs.Nodup :=
    (Steps.allocated (h₁.trans h₂) (Site.allocated_start first)).refs_nodup
  obtain ⟨-, hv₁⟩ := hg.shows (Builder.shows_start first)
  have hgraph := hp.graph_eq.1
  have hlive : b₂.Live rt args σ (Memory.start σ) ∧ b₂.Gathers Ref.endpoint [] :=
    hvalid.sound.live (by rw [hgraph, hg.graph_eq]; rfl) (by rw [hgraph, hg.graph_eq]; rfl)
      (by rw [hgraph, hg.graph_eq]; rfl)
  exact ⟨hvalid, hlive.1, named_start hg hp hd, ⟨_, (hp.shows hv₁).2⟩, nofun, true, rfl⟩

/-- There is one way for each branch of a program. -/
theorem Program.crosses (hrt : rt.Lawful t) {p : Program} {g : Graph} (hf : 1 ≤ first)
    (h : p.lower t first = .ok g) (args : Nat → V) (σ : Ref → V) :
    ∃ b counter, g = { b.graph with counter := counter } ∧
      List.Forall₂ (Passage.Crosses rt t args σ first b) (p.passages t first) p.branches := by
  rcases he : p.entry? with _ | entry
  · obtain ⟨b, -, hg⟩ := (ProgramLowered.of_lower h).steps hf
    refine ⟨b, b.next, hg, ?_⟩
    rw [Program.passages, Program.branches, he]
    exact .nil
  · obtain ⟨b₁, b₂, last, b₃, h₁, h₂, h₃, hg⟩ := lower_entry_ok h he
    refine ⟨b₃, b₃.next, hg, ?_⟩
    have hstart : (do declareGlobals p.globals; parameters 0 entry.params) (Builder.start first) =
        .ok () b₂ :=
      bind_ok.mpr ⟨_, b₁, h₁, h₂⟩
    simp only [Program.passages, Program.branches, he, hstart, Option.elim_some]
    exact Stmt.bodyCrosses hrt entry.body h₃
      (stage_start hf (GlobalsLowered.of_run _ h₁) (ParamsLowered.of_run _ h₂))

/-! ## Evaluations -/

variable (rt args) in
/-- Visits some nodes of a graph, from a store on. -/
def Graph.runThrough (g : Graph) (nodes : List Node) (store : Ref → V) : Option (Memory V) :=
  nodes.foldlM (g.visit rt args) (Memory.start store)

/-- An evaluation of the whole graph comes past every point of its lowering. -/
theorem Steps.runThrough {b b' : Builder} {m : Memory V} (h : Steps t ⟨[], b⟩ ⟨[], b'⟩)
    (hv : Site.Valid t first ⟨[], b⟩) (hr : b.graph.run rt args σ = some m) (counter : Ref) :
    Graph.runThrough rt args { b'.graph with counter := counter } b.graph.nodes σ = some m := by
  have hle : b.Le b' := (Steps.le h :)
  have hrun : Graph.run rt args { b'.graph with nodes := b.graph.nodes } σ = some m :=
    Graph.run_keep (g := b.graph) rfl hle.literals (fun n hn => h.feedsOf_node hv hn) hr
  exact hrun

variable (rt t args) in
/-- What is behind a branch that was not taken, with the memories in front of it and behind it. -/
structure Passage.Untaken (g : Graph) (q : Passage) (m m' : Memory V) : Prop where
  /-- the branch amounts to its declarations, one after another -/
  declares : (Stmt.bodyDeclarations q.body).foldlM (View.declare rt t g.latestRef?)
    (q.before.view rt args m) = some (q.after.view rt args m')
  /-- variables keep their values -/
  store : m'.store = m.store
  /-- names that it does not declare keep their values -/
  kept : ∀ name, name ∉ Stmt.bodyDeclared q.body →
    q.after.look rt args m' name = q.before.look rt args m name
  /-- names that it declares have the values of their declarations -/
  declared : ∀ name ∈ Stmt.bodyDeclared q.body, ∃ v,
    (q.after.view rt args m').local? name = some v ∧ q.after.look rt args m' name = some v

/-- Which names stand for variables behind a branch, taken or not. -/
structure Passage.Hides (g : Graph) (q : Passage) : Prop where
  /-- those that it declares do not, and the variables of these names are not written any more -/
  declared : ∀ name ∈ Stmt.bodyDeclared q.body, q.after.scope.globalRef? name = none ∧
    ∀ n ∈ g.nodes, n.Stores → g.latestRef? name = some n.linked → n ∈ q.after.graph.nodes
  /-- the others stand for what they stood for -/
  kept : ∀ name, name ∉ Stmt.bodyDeclared q.body →
    q.after.scope.globalRef? name = q.before.scope.globalRef? name

namespace Passage.Crosses

variable {q : Passage} {body : List Stmt} {b : Builder}

/-- The points of a way come one after another. -/
theorem le (h : q.Crosses rt t args σ first b body) : q.before.Le q.after ∧ q.after.Le b := by
  obtain ⟨m, hst⟩ := h.stage
  obtain ⟨last, last', hb⟩ := h.lowered
  exact ⟨(Steps.le (hb.steps hst.sound hst.yields) :), (Steps.le h.steps :)⟩

/-- Names that are declared in a branch stand for no variable from there on. -/
theorem hides (h : q.Crosses rt t args σ first b body) (counter : Ref) :
    q.Hides { b.graph with counter := counter } := by
  obtain ⟨m, hst⟩ := h.stage
  obtain ⟨last, last', hb⟩ := h.lowered
  obtain ⟨hidden, hv⟩ := hst.shows
  obtain ⟨hglobals, hv'⟩ := hb.shows hst.sound hst.yields hv
  refine ⟨fun name hn => ⟨?_, fun n hm hs hr => ?_⟩, fun name hn => ?_⟩
  · rw [hv' name, if_pos (List.mem_append_right _ hn)]
  · rcases h.follows.stores n hm hs with hm | ⟨other, ho⟩
    · exact hm
    · -- the name that stood for the variable would be this one
      exfalso
      have hafter : q.after.graph.latestRef? name = some n.linked := by
        rw [← Graph.latestRef?_congr h.follows.globals name]
        exact hr
      have hother := hv' other
      rw [ho] at hother
      by_cases hm : other ∈ hidden ++ Stmt.bodyDeclared q.body
      · rw [if_pos hm] at hother
        cases hother
      · rw [if_neg hm] at hother
        rw [Graph.latestRef?_congr hglobals] at hother hafter
        exact hm (hst.named.distinct name other _ hafter hother.symm ▸
          List.mem_append_right _ hn)
  · rw [hv' name, hv name, Graph.latestRef?_congr hglobals]
    simp [hn]

/-- Where the condition of a branch is false, the branch amounts to its declarations. -/
theorem untaken (hrt : rt.Lawful t) (h : q.Crosses rt t args σ first b body) {counter : Ref}
    {g : Graph} (hg : g = { b.graph with counter := counter }) :
    ∃ m m' v, g.runThrough rt args q.before.graph.nodes σ = some m ∧
      g.runThrough rt args q.after.graph.nodes σ = some m' ∧
      g.value? rt args m q.condition.ref q.condition.pin = some v ∧
      (rt.truth v = false → q.Untaken rt t args g m m') := by
  subst hg
  obtain ⟨m, hst⟩ := h.stage
  obtain ⟨last, last', hb⟩ := h.lowered
  obtain ⟨truth, v, hv, ht⟩ := hst.under
  have hsteps : Steps t ⟨[], q.before⟩ ⟨[], q.after⟩ := hb.steps hst.sound hst.yields
  have hall : Steps t ⟨[], q.before⟩ ⟨[], b⟩ := ReflTransGen.trans hsteps h.steps
  have hle : q.before.Le b := (Steps.le hall :)
  obtain ⟨m', hlead, hfold⟩ := hb.leads hrt hst.live hst.named hst.apart ⟨v, hv, ht⟩
  refine ⟨m, m', v, hall.runThrough hst.valid hst.live.run counter,
    h.steps.runThrough (hsteps.valid hst.valid) hlead.live.run counter,
    Graph.value?_mono hle.literals hv, fun hfalse => ?_⟩
  have hrefs : q.before.graph.latestRef? = b.graph.latestRef? :=
    (funext (Graph.latestRef?_congr (h.follows.globals.trans hlead.globals))).symm
  have hdeclares := hfold (ht.symm.trans hfalse)
  obtain ⟨hsame, hsome⟩ := View.sameBut_of_foldlM hdeclares
  rw [Stmt.map_bodyDeclarations] at hsame hsome
  have hlook : q.after.look rt args m' =
      (q.after.view rt args m').look q.before.graph.latestRef? := by
    rw [hlead.live.look_eq hlead.named, funext (Graph.latestRef?_congr hlead.globals)]
  refine ⟨hrefs ▸ hdeclares, hsame.store, fun name hn => ?_, fun name hn => ?_⟩
  · rw [hlook, hst.live.look_eq hst.named, View.look, View.look, hsame.local? name hn, hsame.store]
  · obtain ⟨x, hx⟩ := Option.isSome_iff_exists.mp (hsome name hn)
    refine ⟨x, hx, ?_⟩
    rw [hlook, View.look, hx, Option.some_or]

end Passage.Crosses

variable (rt t args) in
/-- What an evaluation of a graph shows of a branch with the given statements. -/
structure Passage.Observed (g : Graph) (store : Ref → V) (q : Passage) (body : List Stmt) : Prop where
  body : q.body = body
  /-- the evaluation comes past the point in front of the branch, then past the one behind it -/
  inside : q.before.graph.nodes <+: q.after.graph.nodes
  behind : q.after.graph.nodes <+: g.nodes
  hides : q.Hides g
  /-- the condition of the branch has a value, and if that is false, the branch is not taken -/
  condition : ∃ m m' v, g.runThrough rt args q.before.graph.nodes store = some m ∧
    g.runThrough rt args q.after.graph.nodes store = some m' ∧
    g.value? rt args m q.condition.ref q.condition.pin = some v ∧
    (rt.truth v = false → q.Untaken rt t args g m m')

/-- **Branches that are not taken.** Take any arguments and any values of the variables. For each
branch of a program, at whatever depth, the evaluation of the graph comes past the points in front of
the branch and behind it, and the condition of the branch has a value. If it is false, the branch
amounts to its declarations: other names and all variables are as they were, and the names that it
declares have the values of their declarations. Whether it is false or true, from there on these
names stand for no variable, and their variables are not written. -/
theorem lower_untaken_branches {p : Program} {g : Graph} (hrt : rt.Lawful t) (hf : 1 ≤ first)
    (h : p.lower t first = .ok g) (args : Nat → V) (store : Ref → V) :
    List.Forall₂ (Passage.Observed rt t args g store) (p.passages t first) p.branches := by
  obtain ⟨b, counter, hg, hall⟩ := Program.crosses hrt hf h args store
  refine hall.imp fun q body hq => ?_
  obtain ⟨hinside, hbehind⟩ := hq.le
  exact ⟨hq.body, hinside.nodes, hg ▸ hbehind.nodes, hg ▸ hq.hides counter, hq.untaken hrt hg⟩

/-- A source that declares a local and a variable again, in branches inside of a branch. -/
def nestedDeclarations : String :=
  "float a; def Main(bool c, bool d) \x7b float x = 1; a = 3; if (c) \x7b if (d) \x7b " ++
    "float x = 2; x += a; \x7d else \x7b float a = x; a = 5; \x7d \x7d x = 4; a = x; \x7d"

/-- The three branches of `nestedDeclarations`, on every argument and every store. -/
theorem lower_untaken_branches_nestedDeclarations :
    ∃ p g, Program.parse nestedDeclarations = .ok p ∧ p.lower Builtins.standard 1 = .ok g ∧
      Runtime.whole.Lawful Builtins.standard ∧ p.branches.length = 3 ∧
      ∀ args store, List.Forall₂ (Passage.Observed Runtime.whole Builtins.standard args g store)
        (p.passages Builtins.standard 1) p.branches := by
  obtain ⟨p, g, hp, hg⟩ := exists_lowered nestedDeclarations Builtins.standard 1 (by decide +kernel)
  have hb : ((Program.parse nestedDeclarations).toOption.map (·.branches.length)) = some 3 := by
    decide +kernel
  rw [hp] at hb
  exact ⟨p, g, hp, hg, Runtime.whole_lawful, Option.some.inj hb,
    lower_untaken_branches Runtime.whole_lawful (by decide) hg⟩

/-! ## Declarations are not confined to branches -/

/-- What a name means in front of a branch and behind it. -/
structure Reading where
  /-- the value of the condition -/
  condition : Int
  /-- the value of the name in front of the branch -/
  before : Option Int
  /-- the value of the name behind it -/
  after : Option Int
  /-- the variable for which the name stands in front of the branch -/
  variableBefore : Option Ref
  /-- the variable for which it stands behind it -/
  variableAfter : Option Ref
  deriving DecidableEq, Repr

/-- What a name means around a branch, in an evaluation where all variables start at zero. -/
def Passage.reading? (g : Graph) (args : Nat → Int) (name : String) (q : Passage) :
    Option Reading := do
  let m ← g.runThrough Runtime.whole args q.before.graph.nodes fun _ => 0
  let m' ← g.runThrough Runtime.whole args q.after.graph.nodes fun _ => 0
  let v ← g.value? Runtime.whole args m q.condition.ref q.condition.pin
  return ⟨v, q.before.look Runtime.whole args m name, q.after.look Runtime.whole args m' name,
    q.before.scope.globalRef? name, q.after.scope.globalRef? name⟩

/-- Has a source a branch that declares a name, with the given reading around it? -/
def declaresWith (source : String) (args : Nat → Int) (name : String) (r : Reading) : Bool :=
  (Program.parse source).toOption.any fun p =>
    (p.lower Builtins.standard 1).toOption.any fun g =>
      (p.passages Builtins.standard 1).any fun q =>
        decide (name ∈ Stmt.bodyDeclared q.body ∧ q.reading? g args name = some r)

theorem exists_of_declaresWith {source : String} {args : Nat → Int} {name : String} {r : Reading}
    (h : declaresWith source args name r = true) :
    ∃ p g, Program.parse source = .ok p ∧ p.lower Builtins.standard 1 = .ok g ∧
      ∃ q ∈ p.passages Builtins.standard 1, name ∈ Stmt.bodyDeclared q.body ∧
        q.reading? g args name = some r := by
  rw [declaresWith] at h
  rcases hp : Program.parse source with e | p
  · rw [hp] at h
    cases h
  · rw [hp] at h
    simp only [Except.toOption, Option.any_some] at h
    rcases hg : p.lower Builtins.standard 1 with e | g
    · rw [hg] at h
      cases h
    · rw [hg] at h
      obtain ⟨q, hq, hr⟩ := List.any_eq_true.mp h
      exact ⟨p, g, rfl, hg, q, hq, of_decide_eq_true hr⟩

/-- A source with a local of a branch under the name of a global variable. -/
def hiddenGlobal : String :=
  "float a; def Main(bool c) \x7b if (c) \x7b float a = 2; \x7d a = 1; \x7d"

/-- **A declaration reaches beyond its branch.** In `leakedLocal` with a false condition, `x` is one
in front of the branch that declares it and two behind it. In `hiddenGlobal`, `a` stands for a
variable in front of the branch and for none behind it, so that the assignment there makes no node
that writes. -/
theorem declarations_not_confined :
    (∃ p g, Program.parse leakedLocal = .ok p ∧ p.lower Builtins.standard 1 = .ok g ∧
      ∃ q ∈ p.passages Builtins.standard 1, "x" ∈ Stmt.bodyDeclared q.body ∧
        q.reading? g (fun _ => 0) "x" = some ⟨0, some 1, some 2, none, none⟩) ∧
    (∃ p g, Program.parse hiddenGlobal = .ok p ∧ p.lower Builtins.standard 1 = .ok g ∧
      ∃ q ∈ p.passages Builtins.standard 1, "a" ∈ Stmt.bodyDeclared q.body ∧
        q.reading? g (fun _ => 0) "a" = some ⟨0, some 0, some 2, some 1, none⟩) ∧
    (Program.parse hiddenGlobal).toOption.bind
      (fun p => (p.lower Builtins.standard 1).toOption.map Graph.writes) = some [] := by
  refine ⟨exists_of_declaresWith ?_, exists_of_declaresWith ?_, ?_⟩
  · decide +kernel
  · decide +kernel
  · decide +kernel

end ScriptGraph
