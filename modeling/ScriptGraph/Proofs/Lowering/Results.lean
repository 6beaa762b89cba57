import ScriptGraph.Proofs.Compilation
import ScriptGraph.Proofs.Lowering.Feeding

/-!
# What leads to the outputs of the method

A return carries its values to the outputs, the first value to the first output, and it does so
wherever it stands: there is no choice between the values of two returns. The returns of a method
share the outputs, so that an output has one connection for each return that reaches it, in the order
of the text, and there are as many outputs as the longest return has values.

* `Stmt.returns`, `Program.returns` — the values of the returns, in the order of the text;
* `Builder.Returns` — what some returns add to the outputs and to the connections into them;
* `StmtLowered.exits` — a statement adds what its returns do;
* `Graph.repair_producers` — a repair leads nothing to an output.
-/

namespace ScriptGraph

open Lowering Relation

/-! ## Returns in a text -/

namespace Stmt

mutual

/-- The values of the returns of a statement, in its branches too. -/
def returns : Stmt → List (List Expr)
  | .branch _ thenBody none _ => bodyReturns thenBody
  | .branch _ thenBody (some elseBody) _ => bodyReturns thenBody ++ bodyReturns elseBody
  | .ret values _ => [values]
  | _ => []

/-- The values of the returns of a body. -/
def bodyReturns : List Stmt → List (List Expr)
  | [] => []
  | s :: rest => s.returns ++ bodyReturns rest

end

end Stmt

/-- The values of the returns of the entry method. -/
def Program.returns (p : Program) : List (List Expr) :=
  p.entry?.elim [] fun m => Stmt.bodyReturns m.body

/-! ## What returns add -/

/-- The outputs that connections lead to, one after another. -/
def Graph.exits (g : Graph) : List Nat :=
  (g.feedsOf Ref.endpoint).map (·.targetPin)

/-- Every return adds a connection to each output from the first on, and outputs if there are too
few. -/
structure Builder.Returns (b : Builder) (returns : List (List Expr)) (b' : Builder) : Prop where
  exits : b'.graph.exits = b.graph.exits ++ returns.flatMap fun values => List.range values.length
  outputs : b'.graph.outputs.length = (returns.map List.length).foldl max b.graph.outputs.length

namespace Builder.Returns

variable {b b₁ b₂ : Builder} {returns returns' : List (List Expr)}

theorem nil (hf : b₁.graph.feedsOf Ref.endpoint = b.graph.feedsOf Ref.endpoint)
    (ho : b₁.graph.outputs = b.graph.outputs) : b.Returns [] b₁ :=
  ⟨by simp [Graph.exits, hf], by simp [ho]⟩

theorem trans (h : b.Returns returns b₁) (h' : b₁.Returns returns' b₂) :
    b.Returns (returns ++ returns') b₂ := by
  refine ⟨?_, ?_⟩
  · rw [h'.exits, h.exits, List.flatMap_append, List.append_assoc]
  · rw [h'.outputs, h.outputs, List.map_append, List.foldl_append]

theorem bind (h : b.Returns returns b₁) (name : String) (binding : Binding) :
    b.Returns returns (b₁.bind name binding) :=
  ⟨h.exits, h.outputs⟩

/-- The chain of execution leads no value to an output. -/
theorem chain (h : b.Returns returns b₁) (source target : Ref) :
    b.Returns returns (b₁.connect (.execution source target)) := by
  refine ⟨?_, h.outputs⟩
  rw [Graph.exits, Graph.feedsOf_execution (g := b₁.graph) rfl]
  exact h.exits

end Builder.Returns

section

variable {t : Builtins} {b b' : Builder}

/-- An expression is no return. -/
theorem ExprSteps.exits {b b' : Builder} (h : ExprSteps t ⟨[], b⟩ ⟨[], b'⟩) (hs : b.Sound) :
    b.Returns [] b' :=
  .nil (h.feedsOf_endpoint hs) h.frame.2.2.2

/-- An assignment is none. -/
theorem Builder.returns_afterStore {b : Builder} (hs : b.Sound) (name : String) (value : Wire)
    (last : Ref) (binding : Binding) : b.Returns [] (b.afterStore name value last binding) := by
  have hf := Builder.feedsOf_afterStore hs name value last binding
  cases binding <;> exact .nil hf rfl

/-- The values of a return go to the outputs from `index` on. -/
theorem OutputsLowered.exits {index : Nat} {values : List Expr}
    (h : OutputsLowered t index values b b') (hs : b.Sound)
    (hi : index ≤ b.graph.outputs.length) :
    b'.graph.exits = b.graph.exits ++ List.range' index values.length ∧
      b'.graph.outputs.length = max b.graph.outputs.length (index + values.length) := by
  induction h with
  | nil index b => exact ⟨by simp, by simpa using hi⟩
  | @cons index value values b b₁ b₂ w h hv ih =>
    obtain ⟨h₁, hw⟩ := h.steps hs []
    have hquiet := h₁.exits hs
    have hout₁ : b₁.graph.outputs.length = b.graph.outputs.length := by simpa using hquiet.outputs
    have hexit₁ : b₁.graph.exits = b.graph.exits := by simpa using hquiet.exits
    have hi₁ : index ≤ b₁.graph.outputs.length := hout₁ ▸ hi
    have hstep : Step t ⟨[], b₁⟩ _ := .output hw hi₁
    obtain ⟨hexits, hout⟩ := ih (hstep.sound (hs.of_exprSteps h₁))
      (Builder.lt_ensureOutput_outputs hi₁).1
    -- one more connection, and one more output if this is the first return to reach it
    have hexit₂ : ((b₁.ensureOutput index).connect
        (.data w.ref w.pin Ref.endpoint index)).graph.exits = b.graph.exits ++ [index] := by
      rw [Graph.exits, Builder.feedsOf_connect_self, Builder.feedsOf_ensureOutput, List.map_append,
        ← hexit₁]
      rfl
    have hout₂ : (b₁.ensureOutput index).graph.outputs.length =
        max b.graph.outputs.length (index + 1) := by
      by_cases hl : b₁.graph.outputs.length ≤ index
      · simp only [Builder.ensureOutput, if_pos hl, List.length_append, List.length_singleton]
        omega
      · simp only [Builder.ensureOutput, if_neg hl]
        omega
    refine ⟨?_, ?_⟩
    · rw [hexits, hexit₂, List.append_assoc, List.length_cons, List.range'_succ]
      rfl
    · rw [hout, List.length_cons]
      have hconnect : ((b₁.ensureOutput index).connect
          (.data w.ref w.pin Ref.endpoint index)).graph.outputs.length =
          max b.graph.outputs.length (index + 1) := hout₂
      rw [hconnect]
      omega

mutual

/-- A statement adds what its returns add. -/
theorem StmtLowered.exits {condition : Option Wire} {last last' : Ref} {s : Stmt}
    {b b' : Builder} (h : StmtLowered t condition last s b last' b') (hs : b.Sound)
    (hc : ∀ w ∈ condition, b.Yields w) : b.Returns s.returns b' := by
  cases h with
  | declarePublic hp hi ht => exact .nil rfl rfl
  | declare hp hi he => exact ((he.steps hs []).1.exits hs).bind _ _
  | assign hb ha =>
    have hb₀ := hs.scope _ _ hb
    obtain ⟨h₁, hn, hp⟩ := ha.steps hs hb₀
    obtain ⟨h₂, -⟩ := steps_afterGating (t := t) (hb₀.mono h₁.le) hn hp
      fun w hw => (hc w hw).mono h₁.le
    have h₁₂ : ExprSteps t _ _ := h₁.trans h₂
    exact (h₁₂.exits hs).trans (Builder.returns_afterStore (hs.of_exprSteps h₁₂) ..)
  | branch he ht =>
    obtain ⟨h₁, hj, -⟩ := he.steps_then hs hc
    exact (h₁.exits hs).trans (ht.exits (hs.of_exprSteps h₁) hj.some)
  | branchElse he ht hn hf =>
    obtain ⟨h₁, hj, hw⟩ := he.steps_then hs hc
    have hs₁ := hs.of_exprSteps h₁
    have h₂ := ht.steps hs₁ hj.some
    have hs₂ := h₂.sound hs₁
    obtain ⟨h₃, hj'⟩ := steps_else (t := t) hn (hw.mono h₂.le)
      fun w hw => ((hc w hw).mono h₁.le).mono h₂.le
    have hthen := (h₁.exits hs).trans (ht.exits hs₁ hj.some)
    exact hthen.trans ((h₃.exits hs₂).trans (hf.exits (hs₂.of_exprSteps h₃) hj'.some))
  | ret h =>
    obtain ⟨hexits, hout⟩ := h.exits hs (Nat.zero_le _)
    refine Builder.Returns.chain ⟨?_, ?_⟩ last Ref.endpoint
    · simpa [Stmt.returns, List.range_eq_range'] using hexits
    · simpa [Stmt.returns] using hout
  | call h => exact (h.steps hs []).1.exits hs

/-- So do statements one after another. -/
theorem BodyLowered.exits {condition : Option Wire} {last last' : Ref} {body : List Stmt}
    {b b' : Builder} (h : BodyLowered t condition last body b last' b') (hs : b.Sound)
    (hc : ∀ w ∈ condition, b.Yields w) : b.Returns (Stmt.bodyReturns body) b' := by
  cases h with
  | nil => exact .nil rfl rfl
  | cons h hr hs' =>
    have h₁ := h.steps hs hc
    exact (h.exits hs hc).trans
      (hs'.exits (h₁.sound hs) fun w hw => (hc w hw).mono h₁.le)

end

end

/-! ## Programs -/

/-- The returns of a program are all that leads to the outputs of its graph. -/
theorem ProgramLowered.exits {t : Builtins} {p : Program} {first : Ref} {g : Graph}
    (h : ProgramLowered t p first g) (hf : 1 ≤ first) :
    g.exits = p.returns.flatMap (fun values => List.range values.length) ∧
      g.outputs.length = (p.returns.map List.length).foldl max 0 := by
  obtain ⟨hg, he⟩ := h
  rename_i b₁ b₂
  have h₁ : Steps t _ _ := hg.steps
  have hs₁ := h₁.sound (Builder.sound_start hf)
  have hempty : b₁.graph.exits = [] ∧ b₁.graph.outputs = [] := by
    rw [hg.graph_eq]
    exact ⟨rfl, rfl⟩
  rw [Program.returns]
  generalize p.entry? = m at he
  cases he with
  | absent => exact ⟨hempty.1, congrArg List.length hempty.2⟩
  | @present m _ b b' last hp hb =>
    have h₂ : Steps t _ _ := hp.steps (by rw [hg.graph_eq]; rfl)
    have hparams : b.graph.exits = [] ∧ b.graph.outputs = [] := by
      rw [hp.graph_eq.1]
      exact hempty
    have hr := hb.exits (h₂.sound hs₁) (by simp)
    refine ⟨?_, ?_⟩
    · have hexits := hr.exits
      rw [hparams.1, List.nil_append] at hexits
      exact hexits
    · have hout := hr.outputs
      rw [hparams.2, List.length_nil] at hout
      exact hout

/-- The data connections into an output of the method. -/
def Graph.producers (g : Graph) (index : Nat) : List Connection :=
  g.connections.filter fun c => !c.isExecution && c.target == Ref.endpoint && c.targetPin == index

theorem Graph.length_producers (g : Graph) (index : Nat) :
    (g.producers index).length = g.exits.count index := by
  rw [producers, ← List.countP_eq_length_filter, exits, List.count, List.countP_map, feedsOf,
    List.countP_filter]
  refine List.countP_congr fun c _ => ?_
  simp [and_comm, and_assoc]

/-- A repair leads nothing to an output. -/
theorem Graph.repair_producers (g : Graph) (index : Nat) :
    g.repair.producers index = g.producers index := by
  rw [producers, producers, repair, List.filter_append]
  simp [Connection.execution]

/-- Of some returns, those with more than `index` values reach an output. -/
theorem count_flatMap_range (returns : List (List Expr)) (index : Nat) :
    (returns.flatMap fun values => List.range values.length).count index =
      returns.countP fun values => index < values.length := by
  induction returns with
  | nil => rfl
  | cons values returns ih =>
    rw [List.flatMap_cons, List.count_append, ih, List.countP_cons, Nat.add_comm]
    have hrange : (List.range values.length).count index = if index < values.length then 1 else 0 := by
      rw [List.nodup_range.count]
      simp only [List.mem_range]
    simp [hrange]

/-- An output is there because a return reaches it. -/
theorem exists_of_lt_foldl_max {returns : List (List Expr)} {start index : Nat}
    (h : index < (returns.map List.length).foldl max start) (hs : start ≤ index) :
    ∃ values ∈ returns, index < values.length := by
  induction returns generalizing start with
  | nil => exact absurd h (Nat.not_lt.mpr hs)
  | cons values returns ih =>
    by_cases hv : index < values.length
    · exact ⟨values, List.mem_cons_self .., hv⟩
    · obtain ⟨other, hm, ho⟩ := ih h (Nat.max_le.mpr ⟨hs, Nat.not_lt.mp hv⟩)
      exact ⟨other, List.mem_cons_of_mem _ hm, ho⟩

/-- **An output has one connection for each return that reaches it.** In a compiled graph the data
connections into an output are as many as there are returns in the entry method, in branches too, with
a value for it. So an output has at least one, and it has exactly one if only one return has a value
for it; a method with a single return has one connection into every output. -/
theorem compile_output_producers {o : Options} {source : String} {c : Compiled}
    (h : o.compile source = .ok c) :
    ∃ p, Program.parse source = .ok p ∧ ∀ index < c.graph.outputs.length,
      (c.graph.producers index).length =
          p.returns.countP (fun values => index < values.length) ∧
        1 ≤ (c.graph.producers index).length ∧
        (p.returns.length = 1 → (c.graph.producers index).length = 1) := by
  obtain ⟨hf, p, g, hp, hg, rfl⟩ := Options.compile_ok h
  obtain ⟨hexits, hout⟩ := (ProgramLowered.of_lower hg).exits hf
  refine ⟨p, hp, fun index hi => ?_⟩
  have hlen : (g.repair.producers index).length =
      p.returns.countP (fun values => index < values.length) := by
    rw [g.repair_producers, g.length_producers, hexits, count_flatMap_range]
  have hpos : 1 ≤ p.returns.countP (fun values => index < values.length) := by
    obtain ⟨values, hm, hv⟩ := exists_of_lt_foldl_max (hout ▸ hi) (Nat.zero_le index)
    exact List.countP_pos_iff.mpr ⟨values, hm, by simpa using hv⟩
  rw [hlen]
  refine ⟨rfl, hpos, fun hone => Nat.le_antisymm ?_ hpos⟩
  exact hone ▸ List.countP_le_length

/-- A source with returns of different lengths in its branches. -/
def nestedReturns : String :=
  "def Main(bool c, bool d, float x) \x7b if (c) \x7b if (d) \x7b return(x, 1); \x7d " ++
    "else \x7b return(2); \x7d \x7d return(x, c, d); \x7d"

/-- In `nestedReturns` three returns reach the first output, two the second and one the third. -/
theorem compile_output_producers_nestedReturns :
    ∃ c, ({} : Options).compile nestedReturns = .ok c ∧ c.graph.outputs.length = 3 ∧
      ∃ p, Program.parse nestedReturns = .ok p ∧ p.returns.map List.length = [2, 1, 3] ∧
        ∀ index < c.graph.outputs.length, (c.graph.producers index).length =
          p.returns.countP (fun values => index < values.length) := by
  have hrun : (({} : Options).compile nestedReturns).toOption.map (·.graph.outputs.length) =
      some 3 := by
    decide +kernel
  have hreturns : (Program.parse nestedReturns).toOption.map (fun p => p.returns.map List.length) =
      some [2, 1, 3] := by
    decide +kernel
  rcases hc : ({} : Options).compile nestedReturns with e | c
  · simp [hc, Except.toOption] at hrun
  · obtain ⟨p, hp, hall⟩ := compile_output_producers hc
    refine ⟨c, rfl, by simpa [hc, Except.toOption] using hrun, p, hp, ?_, fun i hi => (hall i hi).1⟩
    simpa [hp, Except.toOption] using hreturns

/-- A source that returns in a branch and behind it. -/
def returnTwice : String :=
  "def Main(bool c) \x7b if (c) \x7b return(1); \x7d return(2); \x7d"

/-- **Outputs with two connections.** An output of a compiled graph need not have a single connection:
both returns of `returnTwice` lead a value to the first output. -/
theorem producers_not_unique :
    ¬∀ (o : Options) (source : String) (c : Compiled), o.compile source = .ok c →
      ∀ index < c.graph.outputs.length, (c.graph.producers index).length = 1 := by
  intro hall
  have hrun : (({} : Options).compile returnTwice).toOption.map
      (fun c => (c.graph.outputs.length, (c.graph.producers 0).length)) = some (1, 2) := by
    decide +kernel
  rcases hc : ({} : Options).compile returnTwice with e | c
  · simp [hc, Except.toOption] at hrun
  · simp only [hc, Except.toOption, Option.map_some, Option.some.injEq, Prod.mk.injEq] at hrun
    have hone := hall _ _ c hc 0 (by rw [hrun.1]; decide)
    rw [hrun.2] at hone
    exact absurd hone (by decide)

end ScriptGraph
