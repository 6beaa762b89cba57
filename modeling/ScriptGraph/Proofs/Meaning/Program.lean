import ScriptGraph.Proofs.Lowering.Allocation
import ScriptGraph.Proofs.Meaning.Statement

/-!
# Programs keep their meaning

The graph of a program does what the program means: from any values of the variables and any
arguments, evaluating it ends with the values and the results that running the program ends with.

This holds of *structured* programs. A return inside of a branch does not stop a graph, and a local
that is declared inside of a branch is there behind it also where the branch was not taken; the last
section has a program of either kind.

* `Graph.Realizes` — a graph does what a program means;
* `BodyLowered.realizes`, `ProgramLowered.realizes` — the simulation up to the end of a method.
-/

namespace ScriptGraph

open Lowering

/-- A graph does what a program means, on some arguments and values of the variables: both come to an
end, with the same values under every name and the same results. -/
def Graph.Realizes {V : Type} (rt : Runtime V) (t : Builtins) (g : Graph) (p : Program)
    (args : Nat → V) (store : Ref → V) : Prop :=
  ∃ m globals results, g.run rt args store = some m ∧
    p.exec rt t (g.globalsIn store) args = some (globals, results) ∧
    (∀ name, (g.globalsIn m.store).get? name = globals.get? name) ∧
    g.results? rt args m = some results

variable {V : Type} {rt : Runtime V} {t : Builtins} {args : Nat → V} {σ : Ref → V}

open Builder

/-! ## Returns -/

/-- An output of the method computes nothing. -/
theorem Builder.Live.ensureOutput {b : Builder} {m : Memory V} (hl : b.Live rt args σ m)
    (index : Nat) : Computes rt args σ b.next b m (b.ensureOutput index) m := by
  have hfeeds : ∀ ref, (b.ensureOutput index).graph.feedsOf ref = b.graph.feedsOf ref := by
    intro ref
    rw [Graph.feedsOf, b.ensureOutput_connections, Graph.feedsOf]
  have hvalue : ∀ ref pin, (b.ensureOutput index).graph.value? rt args m ref pin =
      b.graph.value? rt args m ref pin :=
    Graph.value?_congr (b.ensureOutput_literals index) rfl
  refine ⟨⟨?_, hl.next_pos, ?_, ?_, ?_, ?_, hl.linked⟩,
    ⟨Int.le_refl _, fun ref _ => hvalue ref, fun ref _ => hfeeds ref, ?_⟩, rfl, rfl,
    b.ensureOutput_globals index⟩
  · exact Graph.run_keep (b.ensureOutput_nodes index) (by simp) (fun n _ => hfeeds n.ref) hl.run
  · rw [b.ensureOutput_nodes]
    exact hl.nodes
  · intro ref hr
    rw [hfeeds]
    exact hl.fresh ref hr
  · intro ref hr pin
    rw [hvalue]
    exact hl.blank ref hr pin
  · intro name binding hb
    cases binding with
    | wire wire =>
      rw [bound?, hvalue]
      exact hl.scope name _ hb
    | parameter type pin => rfl
    | globalVar type ref => rfl
  · intro n hn
    rw [b.ensureOutput_nodes] at hn
    exact .inl hn

/-- The outputs of the method gather the values of a return. -/
theorem OutputsLowered.computes (hrt : rt.Lawful t) {index : Nat} {values : List Expr}
    {b b' : Builder} {m : Memory V} (h : OutputsLowered t index values b b')
    (hl : b.Live rt args σ m) (taken : List Wire) (hlen : taken.length = index)
    (hg : b.Gathers Ref.endpoint taken) :
    ∃ m' ws vs, Computes rt args σ Ref.endpoint b m b' m' ∧
      (∀ ref < b.next, ∀ pin,
        b'.graph.value? rt args m' ref pin = b.graph.value? rt args m ref pin) ∧
      b'.Gathers Ref.endpoint (taken ++ ws) ∧ List.Forall₂ (b'.Holds rt args m') ws vs ∧
      Expr.evalArgs rt t (b.look rt args m) values = some vs := by
  induction h generalizing m taken with
  | nil index b =>
    refine ⟨m, [], [], .refl hl _, fun _ _ _ => rfl, ?_, .nil, ?_⟩
    · rw [List.append_nil]
      exact hg
    · rw [Expr.evalArgs]
  | @cons index value values b b₁ b₂ w h hs ih =>
    subst hlen
    obtain ⟨m₁, v, hc₁, hv, he⟩ := h.computes hrt hl
    have hc₂ := hc₁.live.ensureOutput taken.length
    have hc₁₂ := hc₁.trans hc₂ hc₁.carries.next
    have hg₂ := hg.carry hc₁₂.carries
    obtain ⟨hc₃, hg₃⟩ := hc₂.live.gather hg₂ w
    obtain ⟨m₄, ws, vs, hc₄, hvalues, hg₄, hvs, hes⟩ :=
      ih hc₃.live (taken ++ [w]) List.length_append hg₃
    have hlook : ((b₁.ensureOutput taken.length).connect
        (.data w.ref w.pin Ref.endpoint taken.length)).look rt args m₁ =
          (b₁.ensureOutput taken.length).look rt args m₁ := rfl
    rw [hlook, hc₁₂.look_eq hl] at hes
    rw [List.append_assoc] at hg₄
    have hc₁₃ := (hc₁₂.weaken (Int.le_of_lt hg.lt)).trans hc₃ (Int.le_refl _)
    have hv₂ := hv.carry hc₁.live hc₂.carries
    refine ⟨m₄, w :: ws, v :: vs, hc₁₃.trans hc₄ (Int.le_refl _), fun ref hr pin => ?_, hg₄,
      .cons ?_ hvs, ?_⟩
    · rw [hvalues ref (Int.lt_of_lt_of_le hr hc₁₂.carries.next)]
      exact hc₁₂.carries.values ref hr pin
    · exact (hvalues w.ref (hc₂.live.ref_lt hv₂) w.pin).trans hv₂
    · rw [Expr.evalArgs, he, hes]
      rfl

/-! ## Bodies -/

/-- The results of a method are the values that its outputs have gathered. -/
theorem Builder.Gathers.results_eq {b : Builder} {m : Memory V} {ws : List Wire} {vs : List V}
    (hg : b.Gathers Ref.endpoint ws) (hv : List.Forall₂ (b.Holds rt args m) ws vs) :
    b.graph.results? rt args m = some vs :=
  Graph.inputValues?_of_feeds hg.feeds hv

/-- A return yields the values of its expressions, and changes no variable. -/
theorem StmtLowered.returns (hrt : rt.Lawful t) {condition : Option Wire} {last last' : Ref}
    {values : List Expr} {span : Span} {b b' : Builder} {m : Memory V}
    (h : StmtLowered t condition last (.ret values span) b last' b') (hl : b.Live rt args σ m)
    (hg : b.Gathers Ref.endpoint []) :
    ∃ m' vs, b'.graph.run rt args σ = some m' ∧ m'.store = m.store ∧
      b'.graph.globals = b.graph.globals ∧ b'.graph.results? rt args m' = some vs ∧
      Expr.evalArgs rt t (b.look rt args m) values = some vs := by
  cases h with
  | @ret _ _ _ _ _ b₁ h =>
    obtain ⟨m₁, ws, vs, hc, -, hg₁, hvs, he⟩ := h.computes hrt hl [] rfl hg
    -- the chain of execution is closed behind the values, and carries none
    have hfeeds : ∀ ref, (b₁.connect (.execution last Ref.endpoint)).graph.feedsOf ref =
        b₁.graph.feedsOf ref :=
      Graph.feedsOf_execution rfl
    refine ⟨m₁, vs, ?_, hc.store, hc.globals, ?_, he⟩
    · exact Graph.run_keep (g := b₁.graph) rfl List.prefix_rfl (fun n _ => hfeeds n.ref) hc.live.run
    · exact Graph.inputValues?_of_feeds ((hfeeds _).trans hg₁.feeds) hvs

/-- **The body of a method keeps its meaning**, if it returns only at its end and uses no stale
name. -/
theorem BodyLowered.realizes (hrt : rt.Lawful t) {last last' : Ref} {body : List Stmt}
    {b b' : Builder} {m : Memory V} {f : Frame V} {stale : List String}
    (h : BodyLowered t none last body b last' b') (hl : b.Live rt args σ m) (hn : b.Named)
    (hg : b.Gathers Ref.endpoint [])
    (ha : (b.view rt args m).Agrees b.graph.latestRef? stale f)
    (hs : Stmt.bodyIsScoped stale body = true)
    (hr : ∀ s ∈ body, s.isReturn = true ∨ s.returnFree = true) :
    ∃ m' f' results, b'.graph.run rt args σ = some m' ∧
      Stmt.execBody rt t f body = some (f', results) ∧
      (∀ name, f'.globals.get? name = (b.graph.latestRef? name).map m'.store) ∧
      b'.graph.globals = b.graph.globals ∧
      b'.graph.results? rt args m' = some (results.getD []) := by
  induction body generalizing b m f stale last with
  | nil =>
    cases h
    refine ⟨m, f, none, hl.run, ?_, ha.globals, rfl, hg.results_eq .nil⟩
    rw [Stmt.execBody]
  | cons s rest ih =>
    rw [Stmt.bodyIsScoped, Bool.and_eq_true] at hs
    obtain ⟨hs, hrest⟩ := hs
    cases h with
    | @cons _ _ last₁ _ _ _ _ b₁ _ h hlast htail =>
      rcases hr s (List.mem_cons_self ..) with hret | hfree
      · -- nothing follows a return
        obtain rfl := hlast hret
        cases htail
        cases s with
        | ret values span =>
          obtain ⟨m₁, vs, hrun, hstore, hglobals, hresults, he⟩ := h.returns hrt hl hg
          refine ⟨m₁, f, some vs, hrun, ?_, fun name => ?_, hglobals, hresults⟩
          · rw [hl.look_eq hn] at he
            rw [Stmt.execBody, Stmt.exec, ha.evalArgs_eq hs, he]
            rfl
          · rw [ha.globals name, hstore]
            rfl
        | declare d span => cases hret
        | assign target op value span => cases hret
        | branch test thenBody elseBody span => cases hret
        | call receiver member es span => cases hret
      · -- outside of branches there is no condition, so the statement is active
        have hunder : b.Under rt args m none true := rfl
        obtain ⟨m₁, view, hview, hruns⟩ := h.predicates hrt hl hn hunder hfree
        obtain ⟨f₁, hf₁, ha₁⟩ := Stmt.active hn.distinct s hview ha hs
        have hrefs := funext (Graph.latestRef?_congr hruns.globals)
        rw [← hruns.view, ← hrefs] at ha₁
        obtain ⟨m₂, f₂, results, hrun, hexec, hstore, hglobals, hresults⟩ :=
          ih htail hruns.live hruns.named (hg.carry hruns.carries) ha₁ hrest
            fun s' hs' => hr s' (List.mem_cons_of_mem _ hs')
        rw [hrefs] at hstore
        refine ⟨m₂, f₂, results, hrun, ?_, hstore, hglobals.trans hruns.globals, hresults⟩
        rw [Stmt.execBody, hf₁]
        exact hexec

/-! ## The beginning -/

/-- The memory in which no node has been visited. -/
def Memory.start (store : Ref → V) : Memory V :=
  ⟨fun _ => none, store⟩

/-- A graph without nodes, literals and connections can be evaluated, and its names have values. -/
theorem Builder.Sound.live {b : Builder} (hs : b.Sound) (hnodes : b.graph.nodes = [])
    (hliterals : b.graph.literals = []) (hconnections : b.graph.connections = []) :
    b.Live rt args σ (Memory.start σ) ∧ b.Gathers Ref.endpoint [] := by
  have hfeeds : ∀ ref, b.graph.feedsOf ref = [] := by
    intro ref
    rw [Graph.feedsOf, hconnections, List.filter_nil]
  refine ⟨⟨?_, hs.next_pos, ?_, fun ref _ => hfeeds ref, ?_, ?_, ?_⟩, ?_, ?_, hfeeds _⟩
  · rw [Graph.run, hnodes]
    rfl
  · simp [hnodes]
  · intro ref hr pin
    have hpos : 0 < ref := Int.lt_of_lt_of_le hs.next_pos hr
    have hne : ref ≠ Ref.endpoint := Int.ne_of_gt (Int.lt_trans (by decide) hpos)
    simp [Graph.value?, hne, Memory.start, hliterals]
  · intro name binding hb
    have hy := hs.scope name binding hb
    cases binding with
    | wire wire =>
      rcases hy with ⟨he, -⟩ | ⟨l, hl, -⟩ | ⟨n, hn, -⟩
      · rw [bound?, Graph.value?, if_pos he]
        rfl
      · rw [hliterals] at hl
        cases hl
      · rw [hnodes] at hn
        cases hn
    | parameter type pin => rfl
    | globalVar type ref => rfl
  · intro name type ref hb
    obtain ⟨v, hv, hr⟩ := hs.scope name _ hb
    rw [← hr]
    exact hs.globals_pos v hv
  · exact hs.endpoint_lt
  · simp [hnodes]

/-- A name that stood for something still does behind the parameters. -/
theorem ParamsLowered.bound {pin : Nat} {ps : List Parameter} {b b' : Builder}
    (h : ParamsLowered pin ps b b') {name : String} (hb : (b.scope.get? name).isSome = true) :
    (b'.scope.get? name).isSome = true := by
  induction h with
  | nil pin b => exact hb
  | @cons pin p ps b b' type ht hs ih =>
    refine ih ?_
    by_cases hn : name = p.name.text
    · rw [hn, Builder.addInput, Dictionary.get?_insert_self]
      rfl
    · rw [Builder.addInput, Dictionary.get?_insert_of_ne hn]
      exact hb

/-- Declarations of variables make no local. -/
theorem GlobalsLowered.local?_eq {ds : List Declaration} {b b' : Builder} {m : Memory V}
    (h : GlobalsLowered ds b b') (hb : ∀ name, b.local? rt args m name = none) (name : String) :
    b'.local? rt args m name = none := by
  induction h with
  | nil b => exact hb name
  | @cons d ds b b' type default ht hd hs ih =>
    refine ih fun other => ?_
    by_cases hn : other = d.name.text
    · rw [hn, local?, Builder.declareGlobal, Dictionary.get?_insert_self]
      rfl
    · rw [local?, Builder.declareGlobal, Dictionary.get?_insert_of_ne hn]
      exact hb other

/-- Parameters have the values of the arguments. -/
theorem ParamsLowered.local?_eq {pin : Nat} {ps : List Parameter} {b b' : Builder} {m : Memory V}
    (h : ParamsLowered pin ps b b') {locals : Dictionary V}
    (hb : ∀ name, locals.get? name = b.local? rt args m name) (name : String) :
    (Parameter.bindAll args pin locals ps).get? name = b'.local? rt args m name := by
  induction h generalizing locals with
  | nil pin b => exact hb name
  | @cons pin p ps b b' type ht hs ih =>
    rw [Parameter.bindAll]
    refine ih fun other => ?_
    by_cases hn : other = p.name.text
    · rw [hn, Dictionary.get?_insert_self, local?, Builder.addInput, Dictionary.get?_insert_self]
      rfl
    · rw [Dictionary.get?_insert_of_ne hn, hb other, local?, local?, Builder.addInput,
        Dictionary.get?_insert_of_ne hn]
      rfl

/-- Two names never mean one variable. -/
theorem Graph.latestRef?_inj {g : Graph} (h : g.refs.Nodup) {name name' : String} {ref : Ref}
    (hr : g.latestRef? name = some ref) (hr' : g.latestRef? name' = some ref) : name = name' := by
  obtain ⟨v, hv, hn, he⟩ := Graph.exists_of_latestRef? hr
  obtain ⟨v', hv', hn', he'⟩ := Graph.exists_of_latestRef? hr'
  have hd : (g.globals.map (·.ref)).Nodup := (List.nodup_append.mp h).2.1
  have heq : v = v' := List.inj_on_of_nodup_map hd hv hv' (he.trans he'.symm)
  rw [← hn, ← hn', heq]

/-- Behind the declarations and the parameters, the names of variables are in order. -/
theorem named_start {first : Ref} {ds : List Declaration} {ps : List Parameter} {b₁ b₂ : Builder}
    (hg : GlobalsLowered ds (Builder.start first) b₁) (hp : ParamsLowered 0 ps b₁ b₂)
    (hd : b₂.graph.refs.Nodup) : b₂.Named := by
  obtain ⟨-, hv₁⟩ := hg.shows (Builder.shows_start first)
  obtain ⟨hglobals, hv₂⟩ := hp.shows hv₁
  refine ⟨fun name type ref hb => (hv₂.of_globalVar hb).2, fun name ref hr => hp.bound ?_,
    fun name name' ref hr hr' => Graph.latestRef?_inj hd hr hr'⟩
  rw [Graph.latestRef?_congr hglobals] at hr
  have hshown := hv₁ name
  rw [if_neg List.not_mem_nil, hr, Scope.globalRef?] at hshown
  obtain ⟨binding, hb, -⟩ := Option.bind_eq_some_iff.mp hshown
  rw [hb]
  rfl

/-- Behind the declarations and the parameters, the names mean what they mean when the method
starts. -/
theorem agrees_start {first : Ref} {ds : List Declaration} {ps : List Parameter} {b₁ b₂ : Builder}
    (hg : GlobalsLowered ds (Builder.start first) b₁) (hp : ParamsLowered 0 ps b₁ b₂) :
    (b₂.view rt args (Memory.start σ)).Agrees b₂.graph.latestRef? []
      ⟨b₂.graph.globalsIn σ, Parameter.bindAll args 0 .empty ps⟩ := by
  refine ⟨fun name => b₂.graph.get?_globalsIn σ name, fun name _ => ?_⟩
  have hempty : ∀ other, (Builder.start first).local? rt args (Memory.start σ) other = none :=
    fun _ => rfl
  refine hp.local?_eq (fun other => ?_) name
  rw [hg.local?_eq hempty other, Dictionary.get?_empty]

/-! ## Programs -/

/-- The counter of a graph has no meaning. -/
theorem Graph.Realizes.setCounter {g : Graph} {p : Program} (h : g.Realizes rt t p args σ)
    (counter : Ref) : Graph.Realizes rt t { g with counter := counter } p args σ :=
  h

/-- The graph of a structured program does what the program means. -/
theorem ProgramLowered.realizes (hrt : rt.Lawful t) {p : Program} {first : Ref} {g : Graph}
    (h : ProgramLowered t p first g) (hf : 1 ≤ first) (hp : p.isStructured = true)
    (args : Nat → V) (store : Ref → V) : g.Realizes rt t p args store := by
  obtain ⟨hg, he⟩ := h
  rename_i b₁ b₂
  refine Graph.Realizes.setCounter ?_ b₂.next
  have h₁ : Steps t _ _ := hg.steps
  have hs₁ : b₁.Sound := h₁.sound (Builder.sound_start hf)
  rw [Program.isStructured] at hp
  rw [Graph.Realizes, Program.exec]
  generalize p.entry? = entry at he hp
  cases he with
  | absent =>
    have hlive : b₁.Live rt args store (Memory.start store) ∧ b₁.Gathers Ref.endpoint [] :=
      hs₁.live (by rw [hg.graph_eq]; rfl) (by rw [hg.graph_eq]; rfl) (by rw [hg.graph_eq]; rfl)
    exact ⟨_, _, _, hlive.1.run, rfl, fun _ => rfl, hlive.2.results_eq .nil⟩
  | @present m _ b₂ b₃ last hparams hbody =>
    have h₂ : Steps t _ _ := hparams.steps (by rw [hg.graph_eq]; rfl)
    have hs₂ : b₂.Sound := h₂.sound hs₁
    have hd : b₂.graph.refs.Nodup :=
      (Steps.allocated (h₁.trans h₂) (Site.allocated_start first)).refs_nodup
    have hgraph := hparams.graph_eq.1
    have hlive : b₂.Live rt args store (Memory.start store) ∧ b₂.Gathers Ref.endpoint [] :=
      hs₂.live (by rw [hgraph, hg.graph_eq]; rfl) (by rw [hgraph, hg.graph_eq]; rfl)
        (by rw [hgraph, hg.graph_eq]; rfl)
    have hm : m.isStructured = true := hp
    rw [Method.isStructured, Bool.and_eq_true, List.all_eq_true] at hm
    obtain ⟨m', f', results, hrun, hexec, hstore, hglobals, hresults⟩ :=
      hbody.realizes hrt hlive.1 (named_start hg hparams hd) hlive.2 (agrees_start hg hparams) hm.1
        fun s hs => by simpa using hm.2 s hs
    have hvariables : b₃.graph.globalsIn store = b₂.graph.globalsIn store := by
      rw [Graph.globalsIn, hglobals, Graph.globalsIn]
    refine ⟨m', f'.globals, results.getD [], hrun, ?_, fun name => ?_, hresults⟩
    · have hin : (b₃.note (.methodDone m.name.text last)).graph.globalsIn store =
          b₂.graph.globalsIn store := hvariables
      rw [hin]
      simp only [hexec]
      rfl
    · rw [Graph.get?_globalsIn, hstore name]
      exact congrArg _ (Graph.latestRef?_congr hglobals name)

/-- **Lowering preserves meaning.** On any arguments and any values of the variables, the graph of a
structured program ends with the values under every name, and with the results, with which the
program ends; and both do come to an end. -/
theorem lower_realizes {p : Program} {first : Ref} {g : Graph} (hrt : rt.Lawful t)
    (hf : 1 ≤ first) (h : p.lower t first = .ok g) (hp : p.isStructured = true)
    (args : Nat → V) (store : Ref → V) : g.Realizes rt t p args store :=
  (ProgramLowered.of_lower h).realizes hrt hf hp args store

/-! ## A runtime on whole numbers -/

/-- The whole part of a number, and zero for what is no number. -/
def Binary32.wholePart : Binary32 → Int
  | .finite negative quanta =>
    let whole : Int := (quanta / Binary32.quantaPerUnit : Nat)
    if negative then -whole else whole
  | _ => 0

/-- The operations on whole numbers that `fork` and its companions use, under their opcodes in the
standard table; a number other than zero counts as true. -/
def Runtime.whole : Runtime Int where
  number := Binary32.wholePart
  truth v := v != 0
  operation opcode inputs _ :=
    if opcode = Opcode.select then
      match inputs with
      | [c, x, y] => if c != 0 then x else y
      | _ => 0
    else if opcode = Opcode.and then
      match inputs with
      | [a, b] => if a != 0 && b != 0 then 1 else 0
      | _ => 0
    else if opcode = Opcode.not then
      match inputs with
      | [a] => if a != 0 then 0 else 1
      | _ => 0
    else if opcode = 48 then
      match inputs with
      | [a, b] => if a < b then 1 else 0
      | _ => 0
    else if opcode = 5 ∨ opcode = 17 then inputs.foldl (· + ·) 0
    else 0

/-- The operators that the standard table lists in two variants. -/
theorem Builtins.standard_variants (op : BinaryOp) :
    ((standard.operator? op.symbol false).all fun scalar =>
      (standard.operator? op.symbol true).all fun vector =>
        (scalar, vector) ∈ [((5 : Opcode), (17 : Opcode)), (60, 28), (14, 23), (45, 20)]) = true := by
  cases op <;> decide +kernel

/-- Whole numbers follow the laws that lowering relies on. -/
theorem Runtime.whole_lawful : Runtime.whole.Lawful Builtins.standard := by
  refine ⟨fun c x y => rfl, fun a b => ?_, fun a => ?_, fun op scalar vector hs hv x y => ?_,
    fun x pin => rfl⟩
  · by_cases ha : a = 0 <;> by_cases hb : b = 0 <;>
      simp [Runtime.whole, Opcode.select, Opcode.and, ha, hb]
  · by_cases ha : a = 0 <;> simp [Runtime.whole, Opcode.select, Opcode.and, Opcode.not, ha]
  · have hlisted := Builtins.standard_variants op
    rw [hs, Option.all_some, hv, Option.all_some, decide_eq_true_iff] at hlisted
    simp only [List.mem_cons, Prod.mk.injEq, List.not_mem_nil, or_false] at hlisted
    rcases hlisted with ⟨rfl, rfl⟩ | ⟨rfl, rfl⟩ | ⟨rfl, rfl⟩ | ⟨rfl, rfl⟩
    · simp [Runtime.whole, Opcode.select, Opcode.and, Opcode.not]
    · simp [Runtime.whole, Opcode.select, Opcode.and, Opcode.not]
    · simp [Runtime.whole, Opcode.select, Opcode.and, Opcode.not]
    · simp [Runtime.whole, Opcode.select, Opcode.and, Opcode.not]

/-- A source with branches inside of branches, a local that both of them change, and a return. -/
def fork : String :=
  "float a; float b; def Main(float x, bool c) \x7b float y = x + 1; if (c) \x7b a = y; " ++
    "if (y < 5) \x7b b += a; \x7d else \x7b y = b; \x7d \x7d else \x7b y = 2; a += y; \x7d " ++
    "return(a + y, b); \x7d"

/-- The graph of `fork` does what `fork` means, on every argument and every store. -/
theorem lower_realizes_fork :
    ∃ p g, Program.parse fork = .ok p ∧ p.lower Builtins.standard 1 = .ok g ∧
      p.isStructured = true ∧ Runtime.whole.Lawful Builtins.standard ∧
      ∀ args store, g.Realizes Runtime.whole Builtins.standard p args store := by
  obtain ⟨p, g, hp, hg⟩ := exists_lowered fork Builtins.standard 1 (by decide +kernel)
  have hs : ((Program.parse fork).toOption.map Program.isStructured) = some true := by
    decide +kernel
  rw [hp] at hs
  have hs : p.isStructured = true := Option.some.inj hs
  exact ⟨p, g, hp, hg, hs, Runtime.whole_lawful,
    lower_realizes Runtime.whole_lawful (by decide) hg hs⟩

/-! ## Programs that are not structured -/

/-- A source with a return inside of a branch. -/
def earlyReturn : String :=
  "float a; def Main(bool c) \x7b if (c) \x7b return(); \x7d a = 1; \x7d"

/-- A source that uses a local behind the branch that declares it. -/
def leakedLocal : String :=
  "float a; def Main(bool c) \x7b float x = 1; if (c) \x7b float x = 2; \x7d a = x; \x7d"

/-- The value of `a` at the end of the graph of a source and at the end of its program, where all
variables start at zero. -/
def outcomes (source : String) (args : Nat → Int) : Option (Option Int × Option Int) := do
  let p ← (Program.parse source).toOption
  let g ← (p.lower Builtins.standard 1).toOption
  let m ← g.run Runtime.whole args fun _ => 0
  let (globals, _) ← p.exec Runtime.whole Builtins.standard (g.globalsIn fun _ => 0) args
  return ((g.globalsIn m.store).get? "a", globals.get? "a")

/-- Two outcomes that differ refute that the graph does what the program means. -/
theorem not_realizes_of_outcomes {source : String} {args : Nat → Int} {x y : Option Int}
    (h : outcomes source args = some (x, y)) (hne : x ≠ y) :
    ∃ p g, Program.parse source = .ok p ∧ p.lower Builtins.standard 1 = .ok g ∧
      ¬g.Realizes Runtime.whole Builtins.standard p args fun _ => 0 := by
  rw [outcomes] at h
  rcases hp : Program.parse source with e | p
  · rw [hp] at h
    cases h
  · rw [hp] at h
    rcases hg : p.lower Builtins.standard 1 with e | g
    · simp [hg, Except.toOption] at h
    · refine ⟨p, g, rfl, hg, ?_⟩
      rintro ⟨m, globals, results, hrun, hexec, hsame, -⟩
      simp only [hg, Except.toOption, Option.bind_eq_bind, Option.bind_some, hrun, hexec] at h
      cases h
      exact hne (hsame "a")

/-- **Branches that return or declare.** Without being structured, a program need not have a graph
that does what it means: a return inside of a branch does not stop the graph, so that `earlyReturn`
writes `a` all the same, and a local of a branch that is not taken is there behind it, so that
`leakedLocal` leaves its value. -/
theorem realizes_fails :
    (∃ p g, Program.parse earlyReturn = .ok p ∧ p.lower Builtins.standard 1 = .ok g ∧
      ¬g.Realizes Runtime.whole Builtins.standard p (fun _ => 1) fun _ => 0) ∧
    ∃ p g, Program.parse leakedLocal = .ok p ∧ p.lower Builtins.standard 1 = .ok g ∧
      ¬g.Realizes Runtime.whole Builtins.standard p (fun _ => 0) fun _ => 0 := by
  constructor
  · refine not_realizes_of_outcomes (x := some 1) (y := some 0) ?_ (by decide)
    decide +kernel
  · refine not_realizes_of_outcomes (x := some 2) (y := some 1) ?_ (by decide)
    decide +kernel

end ScriptGraph
