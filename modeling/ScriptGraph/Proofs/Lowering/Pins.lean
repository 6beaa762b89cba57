import ScriptGraph.Proofs.Lowering.Reads
import ScriptGraph.Proofs.Lowering.Results
import ScriptGraph.Proofs.Tree.Parts

/-!
# The pins of the method

The inputs of a graph are the parameters of its entry method. Its outputs are numbered from one on,
and there are as many as the longest return has values: a return adds what is missing and shares the
rest with the others. What leads to the outputs is then found in the text, one return after another
and one value after another.

* `BodyLowered.return_last` — behind a return nothing follows, in any body;
* `Steps.outputs_numbered` — the outputs are numbered all the time;
* `Outlet`, `Program.outlets` — the values that lowering carries to the outputs, found by lowering up
  to them;
* `Stmt.outlets_deliver` — they are the values of the returns, and all that leads to the outputs;
* `lower_pins` — these together.
-/

namespace ScriptGraph

open Lowering Relation

section

variable {t : Builtins}

/-! ## The last statement of a body -/

mutual

/-- A return is the last statement of its body, in the branches of a statement. -/
theorem StmtLowered.return_last {condition : Option Wire} {last last' : Ref} {s : Stmt}
    {b b' : Builder} (h : StmtLowered t condition last s b last' b') :
    ∀ body ∈ s.bodies, ∀ x ∈ body.dropLast, x.isReturn = false := by
  cases h with
  | branch he ht =>
    rw [Stmt.bodies]
    exact ht.return_last
  | branchElse he ht hn hf =>
    intro body hm
    rw [Stmt.bodies] at hm
    rcases List.mem_append.mp hm with hm | hm
    · exact ht.return_last body hm
    · exact hf.return_last body hm
  | _ => exact nofun

/-- A return is the last statement of its body, for a body and those in it. -/
theorem BodyLowered.return_last {condition : Option Wire} {last last' : Ref} {stmts : List Stmt}
    {b b' : Builder} (h : BodyLowered t condition last stmts b last' b') :
    ∀ body ∈ stmts :: Stmt.bodiesIn stmts, ∀ x ∈ body.dropLast, x.isReturn = false := by
  cases h with
  | nil => simp [Stmt.bodiesIn]
  | @cons _ _ _ _ s rest _ _ _ h hr hs =>
    intro body hm x hx
    have hrest := hs.return_last
    rcases List.mem_cons.mp hm with rfl | hm
    · cases rest with
      | nil => simp at hx
      | cons next rest =>
        rcases List.mem_cons.mp hx with rfl | hx
        · exact Bool.eq_false_iff.mpr fun hret => List.cons_ne_nil _ _ (hr hret)
        · exact hrest _ (List.mem_cons_self ..) x hx
    · rcases List.mem_append.mp hm with hm | hm
      · exact h.return_last body hm x hx
      · exact hrest body (List.mem_cons_of_mem _ hm) x hx

end

/-! ## The numbers of the outputs -/

/-- Pins that are numbered from one on. -/
def numberedPins (count : Nat) : List Pin :=
  (List.range count).map fun index => { name := toString (index + 1) }

/-- The outputs of the method are numbered. -/
def Graph.OutputsNumbered (g : Graph) : Prop :=
  g.outputs = numberedPins g.outputs.length

/-- A step keeps the outputs, or adds the next one. -/
theorem Step.outputs_numbered {s s' : Site} (h : Step t s s')
    (hs : s.builder.graph.OutputsNumbered) : s'.builder.graph.OutputsNumbered := by
  cases h with
  | expr h =>
    rw [Graph.OutputsNumbered, h.frame.2.2.2]
    exact hs
  | @output b index w hw hi =>
    by_cases hl : b.graph.outputs.length ≤ index
    · -- a return asks for one output after another, so a new one comes directly behind the others
      obtain rfl : index = b.graph.outputs.length := Nat.le_antisymm hi hl
      have hout : ((b.ensureOutput b.graph.outputs.length).connect
          (.data w.ref w.pin Ref.endpoint b.graph.outputs.length)).graph.outputs =
          b.graph.outputs ++ [{ name := toString (b.graph.outputs.length + 1) }] := by
        simp [Builder.connect, Builder.ensureOutput]
      rw [Graph.OutputsNumbered, hout, List.length_append, List.length_singleton, numberedPins,
        List.range_succ, List.map_append]
      exact congrArg (· ++ _) hs
    · have hout : ((b.ensureOutput index).connect
          (.data w.ref w.pin Ref.endpoint index)).graph.outputs = b.graph.outputs := by
        simp [Builder.connect, Builder.ensureOutput, hl]
      rw [Graph.OutputsNumbered, hout]
      exact hs
  | _ => exact hs

theorem Steps.outputs_numbered {s s' : Site} (h : Steps t s s')
    (hs : s.builder.graph.OutputsNumbered) : s'.builder.graph.OutputsNumbered := by
  induction h with
  | refl => exact hs
  | tail _ h ih => exact h.outputs_numbered ih

/-! ## Outlets -/

end

/-- A value that lowering carries to an output of the method. -/
structure Outlet where
  /-- the value, as written -/
  value : Expr
  /-- the wire that it became -/
  wire : Wire
  /-- the output -/
  pin : Nat

/-- The connection into the output. -/
def Outlet.connection (o : Outlet) : Connection :=
  .data o.wire.ref o.wire.pin Ref.endpoint o.pin

/-- The values of a return that is lowered from a builder on, carried to the outputs from `index` on. -/
def Expr.outlets (t : Builtins) (index : Nat) (b : Builder) : List Expr → List Outlet
  | [] => []
  | value :: values =>
    behind (expr t value) b fun wire b₁ =>
      ⟨value, wire, index⟩ ::
        behind (do ensureOutput index; connect wire Ref.endpoint index) b₁ fun _ b₂ =>
          Expr.outlets t (index + 1) b₂ values

namespace Stmt

mutual

/-- The outlets of a statement that is lowered from a builder on: those of the returns in it. -/
def outlets (t : Builtins) (condition : Option Wire) (last : Ref) (b : Builder) :
    Stmt → List Outlet
  | .branch test thenBody none _ =>
    behind (expr t test) b fun wire b₁ =>
      behind (conjunction condition wire) b₁ fun whenTrue b₂ =>
        bodyOutlets t (some whenTrue) last b₂ thenBody
  | .branch test thenBody (some elseBody) _ =>
    behind (expr t test) b fun wire b₁ =>
      behind (conjunction condition wire) b₁ fun whenTrue b₂ =>
        bodyOutlets t (some whenTrue) last b₂ thenBody ++
          behind (body t (some whenTrue) last thenBody) b₂ fun last₁ b₃ =>
            behind (unary Opcode.not wire) b₃ fun negated b₄ =>
              behind (conjunction condition negated) b₄ fun whenFalse b₅ =>
                bodyOutlets t (some whenFalse) last₁ b₅ elseBody
  | .ret values _ => Expr.outlets t 0 b values
  | _ => []

/-- The outlets of statements one after another. -/
def bodyOutlets (t : Builtins) (condition : Option Wire) (last : Ref) (b : Builder) :
    List Stmt → List Outlet
  | [] => []
  | s :: rest =>
    s.outlets t condition last b ++ behind (stmt t condition last s) b fun last₁ b₁ =>
      bodyOutlets t condition last₁ b₁ rest

end

end Stmt

/-- The outlets of a program that is lowered with ids from `first` on. -/
def Program.outlets (p : Program) (t : Builtins) (first : Ref) : List Outlet :=
  p.entry?.elim [] fun m =>
    behind (do declareGlobals p.globals; parameters 0 m.params) (Builder.start first) fun _ b =>
      Stmt.bodyOutlets t none Ref.endpoint b m.body

/-! ## Outlets and returns -/

/-- What some returns do to the pins: the inputs stay, and the outputs get the connections of some
outlets, which are the values of the returns. -/
structure Builder.Delivers (b : Builder) (outlets : List Outlet) (returns : List (List Expr))
    (b' : Builder) : Prop where
  inputs : b'.graph.inputs = b.graph.inputs
  feeds : b'.graph.feedsOf Ref.endpoint =
    b.graph.feedsOf Ref.endpoint ++ outlets.map Outlet.connection
  slots : outlets.map (fun o => (o.value, o.pin)) = returns.flatMap fun values => values.zipIdx

namespace Builder.Delivers

variable {b b₁ b₂ : Builder} {outlets outlets' : List Outlet} {returns returns' : List (List Expr)}

theorem nil (hi : b₁.graph.inputs = b.graph.inputs)
    (hf : b₁.graph.feedsOf Ref.endpoint = b.graph.feedsOf Ref.endpoint) : b.Delivers [] [] b₁ :=
  ⟨hi, by simp [hf], rfl⟩

theorem trans (h : b.Delivers outlets returns b₁) (h' : b₁.Delivers outlets' returns' b₂) :
    b.Delivers (outlets ++ outlets') (returns ++ returns') b₂ := by
  refine ⟨h'.inputs.trans h.inputs, ?_, ?_⟩
  · rw [h'.feeds, h.feeds, List.map_append, List.append_assoc]
  · rw [List.map_append, h.slots, h'.slots, List.flatMap_append]

end Builder.Delivers

section

variable {t : Builtins}

/-- An expression carries nothing to the outputs. -/
theorem ExprSteps.delivers_nil {b b' : Builder} (h : ExprSteps t ⟨[], b⟩ ⟨[], b'⟩) (hs : b.Sound) :
    b.Delivers [] [] b' :=
  .nil h.frame.2.2.1 (h.feedsOf_endpoint hs)

/-- Neither does a store. -/
theorem Builder.delivers_afterStore {b : Builder} (hs : b.Sound) (name : String) (value : Wire)
    (last : Ref) (binding : Binding) : b.Delivers [] [] (b.afterStore name value last binding) := by
  have hf := Builder.feedsOf_afterStore hs name value last binding
  cases binding <;> exact .nil rfl hf

/-- A return carries its values to the outputs from `index` on. -/
theorem Expr.outlets_deliver : ∀ (values : List Expr) {index : Nat} {b b' : Builder} {u : Unit},
    outputs t index values b = .ok u b' → b.Sound → index ≤ b.graph.outputs.length →
      b'.graph.inputs = b.graph.inputs ∧
        b'.graph.feedsOf Ref.endpoint = b.graph.feedsOf Ref.endpoint ++
          (Expr.outlets t index b values).map Outlet.connection ∧
        (Expr.outlets t index b values).map (fun o => (o.value, o.pin)) = values.zipIdx index
  | [], index, b, b', u, h, hs, hi => by
    cases h
    exact ⟨rfl, (List.append_nil _).symm, rfl⟩
  | value :: values, index, b, b', u, h, hs, hi => by
    rw [Lowering.outputs] at h
    obtain ⟨w, b₁, h₁, h⟩ := bind_ok.mp h
    obtain ⟨_, b₂, h₂, h⟩ := bind_ok.mp h
    obtain ⟨_, b₃, h₃, h⟩ := bind_ok.mp h
    obtain ⟨hrun, hw⟩ := (ExprLowered.of_run value h₁).steps hs []
    have hi₁ : index ≤ b₁.graph.outputs.length := by rwa [hrun.frame.2.2.2]
    have hstep : Step t ⟨[], b₁⟩ _ := .output hw hi₁
    rw [Expr.outlets, behind_ok h₁, behind_ok (bind_ok.mpr ⟨_, b₂, h₂, h₃⟩)]
    cases h₂
    cases h₃
    obtain ⟨hinputs, hfeeds, hslots⟩ := Expr.outlets_deliver values h
      (hstep.sound (hs.of_exprSteps hrun)) (Builder.lt_ensureOutput_outputs hi₁).1
    have hfirst : ((b₁.ensureOutput index).connect
        (.data w.ref w.pin Ref.endpoint index)).graph.feedsOf Ref.endpoint =
        b.graph.feedsOf Ref.endpoint ++ [.data w.ref w.pin Ref.endpoint index] := by
      rw [Builder.feedsOf_connect_self, Builder.feedsOf_ensureOutput, (hrun.delivers_nil hs).feeds,
        List.map_nil, List.append_nil]
      rfl
    refine ⟨?_, ?_, ?_⟩
    · exact hinputs.trans ((b₁.ensureOutput_inputs index).trans hrun.frame.2.2.1)
    · rw [List.map_cons, ← List.singleton_append, ← List.append_assoc]
      exact hfeeds.trans (congrArg (· ++ _) hfirst)
    · rw [List.map_cons, hslots]
      rfl

mutual

/-- A statement carries the values of its returns to the outputs, and nothing else. -/
theorem Stmt.outlets_deliver : ∀ (s : Stmt) {condition : Option Wire} {last last' : Ref}
    {b b' : Builder}, stmt t condition last s b = .ok last' b' → b.Sound →
      (∀ w ∈ condition, b.Yields w) → b.Delivers (s.outlets t condition last b) s.returns b'
  | .declare d span, condition, last, last', b, b', h, hs, hc => by
    cases StmtLowered.of_run _ h with
    | declarePublic hp hi ht => exact .nil rfl rfl
    | declare hp hi he => exact ((he.steps hs []).1.delivers_nil hs).trans (.nil rfl rfl)
  | .assign target op value span, condition, last, last', b, b', h, hs, hc => by
    cases StmtLowered.of_run _ h with
    | assign hb ha =>
      have hb₀ := hs.scope _ _ hb
      obtain ⟨h₁, hn, hp⟩ := ha.steps hs hb₀
      obtain ⟨h₂, -⟩ := steps_afterGating (t := t) (hb₀.mono h₁.le) hn hp
        fun w hw => (hc w hw).mono h₁.le
      have h₁₂ : ExprSteps t _ _ := h₁.trans h₂
      exact (h₁₂.delivers_nil hs).trans (Builder.delivers_afterStore (hs.of_exprSteps h₁₂) ..)
  | .branch test thenBody none span, condition, last, last', b, b', h, hs, hc => by
    obtain ⟨w, b₁, last₁, b₂, h₁, h₂, rfl, rfl⟩ := branch_ok h
    obtain ⟨hrun, hj, -⟩ := (ExprLowered.of_run test h₁).steps_then hs hc
    have hbody := Stmt.bodyOutlets_deliver thenBody h₂ (hs.of_exprSteps hrun) hj.some
    rw [Stmt.outlets, behind_ok h₁, behind_ok (conjunction_run condition w b₁), Stmt.returns]
    exact (hrun.delivers_nil hs).trans hbody
  | .branch test thenBody (some elseBody) span, condition, last, last', b, b', h, hs, hc => by
    obtain ⟨w, b₁, last₁, b₂, h₁, h₂, h₃⟩ := branch_ok h
    obtain ⟨hrun, hj, hw⟩ := (ExprLowered.of_run test h₁).steps_then hs hc
    have hs₁ := hs.of_exprSteps hrun
    have hthen := (BodyLowered.of_run thenBody h₂).steps hs₁ hj.some
    have hs₂ := hthen.sound hs₁
    obtain ⟨hrun', hj'⟩ := steps_else (t := t) rfl (hw.mono hthen.le)
      fun w hw => ((hc w hw).mono hrun.le).mono hthen.le
    have hfirst := Stmt.bodyOutlets_deliver thenBody h₂ hs₁ hj.some
    have hsecond := Stmt.bodyOutlets_deliver elseBody h₃ (hs₂.of_exprSteps hrun') hj'.some
    have hnot : unary Opcode.not w b₂ = .ok (.ofRef .bool b₂.next)
        (b₂.operate Opcode.not (placeFor w.isPublic) [w]) := rfl
    rw [Stmt.outlets, behind_ok h₁, behind_ok (conjunction_run condition w b₁), behind_ok h₂,
      behind_ok hnot, behind_ok (conjunction_run condition _ _), Stmt.returns]
    exact ((hrun.delivers_nil hs).trans hfirst).trans ((hrun'.delivers_nil hs₂).trans hsecond)
  | .ret values span, condition, last, last', b, b', h, hs, hc => by
    rw [Lowering.stmt] at h
    obtain ⟨u, b₁, h₁, h⟩ := bind_ok.mp h
    cases h
    obtain ⟨hinputs, hfeeds, hslots⟩ := Expr.outlets_deliver values h₁ hs (Nat.zero_le _)
    rw [Stmt.outlets]
    refine ⟨hinputs, ?_, ?_⟩
    · exact (Graph.feedsOf_execution (g := b₁.graph) rfl _).trans hfeeds
    · simpa [Stmt.returns] using hslots
  | .call receiver member args span, condition, last, last', b, b', h, hs, hc => by
    cases StmtLowered.of_run _ h with
    | call h => exact (h.steps hs []).1.delivers_nil hs

/-- So do statements one after another. -/
theorem Stmt.bodyOutlets_deliver : ∀ (body : List Stmt) {condition : Option Wire} {last last' : Ref}
    {b b' : Builder}, Lowering.body t condition last body b = .ok last' b' → b.Sound →
      (∀ w ∈ condition, b.Yields w) →
        b.Delivers (Stmt.bodyOutlets t condition last b body) (Stmt.bodyReturns body) b'
  | [], condition, last, last', b, b', h, hs, hc => by
    cases h
    exact .nil rfl rfl
  | s :: rest, condition, last, last', b, b', h, hs, hc => by
    obtain ⟨last₁, b₁, h₁, h₂⟩ := body_cons_ok h
    have hrun := (StmtLowered.of_run s h₁).steps hs hc
    have hrest := Stmt.bodyOutlets_deliver rest h₂ (hrun.sound hs)
      fun w hw => (hc w hw).mono hrun.le
    rw [Stmt.bodyOutlets, behind_ok h₁, Stmt.bodyReturns]
    exact (s.outlets_deliver h₁ hs hc).trans hrest

end

end

/-! ## Programs -/

/-- The inputs are the parameters, in their order. -/
theorem ParamsLowered.inputs_eq {pin : Nat} {ps : List Parameter} {b b' : Builder}
    (h : ParamsLowered pin ps b b') :
    b'.graph.inputs = b.graph.inputs ++ ps.map fun q => { name := q.name.text } := by
  induction h with
  | nil pin b => simp
  | cons ht hs ih =>
    rw [ih]
    simp [Builder.addInput]

/-- Where the body of the entry method starts, the inputs are there and nothing leads to an output. -/
theorem ParamsLowered.before_body {ds : List Declaration} {ps : List Parameter} {first : Ref}
    {b₁ b₂ : Builder} (hf : 1 ≤ first) (hg : GlobalsLowered ds (Builder.start first) b₁)
    (hp : ParamsLowered 0 ps b₁ b₂) :
    b₂.Sound ∧ b₂.graph.inputs = ps.map (fun q => { name := q.name.text }) ∧
      b₂.graph.feedsOf Ref.endpoint = [] := by
  have hinputs : b₁.graph.inputs = [] := by
    rw [hg.graph_eq]
    rfl
  have h₁ : Steps Builtins.standard _ _ := hg.steps
  have h₂ : Steps Builtins.standard _ _ := hp.steps (by rw [hinputs]; rfl)
  refine ⟨h₂.sound (h₁.sound (Builder.sound_start hf)), ?_, ?_⟩
  · rw [hp.inputs_eq, hinputs, List.nil_append]
  · rw [hp.graph_eq.1, hg.graph_eq]
    rfl

/-- The names of the parameters of the entry method, as pins. -/
def Program.inputPins (p : Program) : List Pin :=
  p.entry?.elim [] fun m => m.params.map fun q => { name := q.name.text }

/-- **The pins of the method.** A graph that a program was lowered to has the parameters of the entry
method as inputs, in their order. In every body of the method, also in branches, a return stands last.
The outputs are numbered from one on, as many as the longest return has values. What leads to them is,
in this order, for each return in the text its values, the first one to the first output. -/
theorem lower_pins {t : Builtins} {p : Program} {first : Ref} {g : Graph} (hf : 1 ≤ first)
    (h : p.lower t first = .ok g) :
    g.inputs = p.inputPins ∧
      (∀ m, p.entry? = some m →
        ∀ body ∈ m.bodies, ∀ s ∈ body.dropLast, s.isReturn = false) ∧
      g.outputs = numberedPins ((p.returns.map List.length).foldl max 0) ∧
      g.feedsOf Ref.endpoint = (p.outlets t first).map Outlet.connection ∧
      (p.outlets t first).map (fun o => (o.value, o.pin)) =
        p.returns.flatMap fun values => values.zipIdx := by
  have hd := ProgramLowered.of_lower h
  have hout : g.outputs = numberedPins ((p.returns.map List.length).foldl max 0) := by
    obtain ⟨b, hrun, rfl⟩ := hd.steps hf
    rw [← (hd.exits hf).2]
    exact hrun.outputs_numbered rfl
  rcases hm : p.entry? with _ | m
  · have hbare : g.inputs = [] ∧ g.feedsOf Ref.endpoint = [] := by
      obtain ⟨hg, he⟩ := hd
      rw [hm] at he
      cases he
      rw [hg.graph_eq]
      exact ⟨rfl, rfl⟩
    simp only [Program.inputPins, Program.returns, Program.outlets, hm] at hout ⊢
    refine ⟨hbare.1, ?_, hout, hbare.2, rfl⟩
    rintro m ⟨⟩
  · obtain ⟨b₁, b₂, last, b₃, h₁, h₂, h₃, rfl⟩ := lower_entry_ok h hm
    have hglobals := GlobalsLowered.of_run _ h₁
    have hparams := ParamsLowered.of_run _ h₂
    obtain ⟨hs, hinputs, hempty⟩ := hparams.before_body hf hglobals
    have hdelivers := Stmt.bodyOutlets_deliver m.body h₃ hs (by simp)
    have hlast := (BodyLowered.of_run m.body h₃).return_last
    have houtlets : p.outlets t first = Stmt.bodyOutlets t none Ref.endpoint b₂ m.body := by
      rw [Program.outlets, hm, Option.elim_some, behind_ok (bind_ok.mpr ⟨_, b₁, h₁, h₂⟩)]
    have hreturns : p.returns = Stmt.bodyReturns m.body := by
      rw [Program.returns, hm, Option.elim_some]
    rw [houtlets, hreturns]
    refine ⟨?_, ?_, hreturns ▸ hout, ?_, hdelivers.slots⟩
    · rw [Program.inputPins, hm, Option.elim_some, ← hinputs]
      exact hdelivers.inputs
    · rintro m ⟨⟩
      exact hlast
    · have hfeeds := hdelivers.feeds
      rw [hempty, List.nil_append] at hfeeds
      exact hfeeds

/-- In `nestedReturns` the three returns have two, one and three values, in branches and behind them:
the outputs are the three of the last, and the first two are shared. -/
theorem lower_pins_nestedReturns :
    ∃ p g, Program.parse nestedReturns = .ok p ∧ p.lower Builtins.standard 1 = .ok g ∧
      g.inputs = p.inputPins ∧ p.inputPins.map (·.name) = ["c", "d", "x"] ∧
      g.outputs = numberedPins 3 ∧ (numberedPins 3).map (·.name) = ["1", "2", "3"] ∧
      g.feedsOf Ref.endpoint = (p.outlets Builtins.standard 1).map Outlet.connection ∧
      (p.outlets Builtins.standard 1).map (·.pin) = [0, 1, 0, 0, 1, 2] := by
  obtain ⟨p, g, hp, hg⟩ := exists_lowered nestedReturns Builtins.standard 1 (by decide +kernel)
  obtain ⟨hinputs, -, houtputs, hfeeds, -⟩ := lower_pins (by decide) hg
  have hread : (Program.parse nestedReturns).toOption.map (fun p =>
      (p.inputPins.map (·.name), p.returns.map List.length,
        (p.outlets Builtins.standard 1).map (·.pin))) =
      some (["c", "d", "x"], [2, 1, 3], [0, 1, 0, 0, 1, 2]) := by
    decide +kernel
  simp only [hp, Except.toOption, Option.map_some, Option.some.injEq, Prod.mk.injEq] at hread
  rw [hread.2.1] at houtputs
  exact ⟨p, g, hp, hg, hinputs, hread.1, houtputs, by decide, hfeeds, hread.2.2⟩

end ScriptGraph
