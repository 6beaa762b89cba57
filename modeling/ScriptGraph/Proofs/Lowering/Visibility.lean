import ScriptGraph.Proofs.Lowering.Steps

/-!
# Which names stand for global variables

There is one scope for a whole method, and a new binding of a name hides the old one for good. So
whether a name stands for a global variable is a matter of the text alone: it does if a variable of
that name is declared and the name is *hidden* neither by a parameter nor by a local declaration that
comes before in the text, at whatever depth.

* `Graph.latestRef?` — the variable that a name means, the last one declared under it;
* `Builder.Shows` — the names that are not hidden stand for their variables, and the others do not;
* `StmtLowered.shows`, `BodyLowered.shows` — a statement hides exactly the names that it declares.
-/

namespace ScriptGraph

open Lowering

/-- The id of the last variable that was declared under a name. -/
def Graph.latestRef? (g : Graph) (name : String) : Option Ref :=
  (g.globals.reverse.find? fun v => v.name == name).map (·.ref)

/-- The variable that a binding is, if it is one. -/
def Binding.globalRef? : Binding → Option Ref
  | .globalVar _ ref => some ref
  | _ => none

/-- The variable that a name stands for, if it stands for one. -/
def Scope.globalRef? (s : Scope) (name : String) : Option Ref :=
  (s.get? name).bind Binding.globalRef?

/-- Exactly the names that are not hidden stand for the variables declared under them. -/
def Builder.Shows (b : Builder) (hidden : List String) : Prop :=
  ∀ name, b.scope.globalRef? name = if name ∈ hidden then none else b.graph.latestRef? name

/-! ## Variables by name -/

/-- A name has a variable if one was declared under it. -/
theorem Graph.latestRef?_isSome {g : Graph} {name : String} :
    (g.latestRef? name).isSome ↔ name ∈ g.globals.map (·.name) := by
  rw [latestRef?, Option.isSome_map, List.find?_isSome]
  simp

/-- The variable that a name means is declared. -/
theorem Graph.exists_of_latestRef? {g : Graph} {name : String} {ref : Ref}
    (h : g.latestRef? name = some ref) : ∃ v ∈ g.globals, v.name = name ∧ v.ref = ref := by
  obtain ⟨v, hv, hr⟩ := Option.map_eq_some_iff.mp h
  refine ⟨v, List.mem_reverse.mp (List.mem_of_find?_eq_some hv), ?_, hr⟩
  simpa using List.find?_some hv

/-- What a name means depends on the declarations only. -/
theorem Graph.latestRef?_congr {g g' : Graph} (h : g'.globals = g.globals) (name : String) :
    g'.latestRef? name = g.latestRef? name := by
  rw [latestRef?, h, latestRef?]

/-- A new declaration takes a name over, and no other. -/
theorem Graph.latestRef?_declare {g g' : Graph} {v : Variable} (h : g'.globals = g.globals ++ [v])
    (name : String) :
    g'.latestRef? name = if v.name = name then some v.ref else g.latestRef? name := by
  rw [latestRef?, h, List.reverse_append, List.reverse_singleton, List.singleton_append]
  by_cases hn : v.name = name
  · rw [List.find?_cons_of_pos (by simpa using hn), if_pos hn, Option.map_some]
  · rw [List.find?_cons_of_neg (by simpa using hn), if_neg hn, latestRef?]

namespace Scope

theorem globalRef?_insert_self (s : Scope) (name : String) (binding : Binding) :
    Scope.globalRef? (s.insert name binding) name = binding.globalRef? := by
  rw [globalRef?, Dictionary.get?_insert_self, Option.bind_some]

theorem globalRef?_insert_of_ne {name other : String} (h : other ≠ name) (s : Scope)
    (binding : Binding) :
    Scope.globalRef? (s.insert name binding) other = s.globalRef? other := by
  rw [globalRef?, Dictionary.get?_insert_of_ne h, globalRef?]

end Scope

/-! ## What a binding does -/

namespace Builder

variable {b b' : Builder} {hidden : List String}

/-- Nothing is bound and nothing is declared. -/
theorem Shows.same (h : b.Shows hidden) (hs : b'.scope = b.scope)
    (hg : b'.graph.globals = b.graph.globals) : b'.Shows hidden := by
  intro name
  rw [hs, h name, Graph.latestRef?_congr hg]

/-- A local value hides its name. -/
theorem Shows.hide (h : b.Shows hidden) {name : String} {binding : Binding}
    (hb : binding.globalRef? = none)
    (hs : b'.scope = b.scope.insert name binding) (hg : b'.graph.globals = b.graph.globals) :
    b'.Shows (hidden ++ [name]) := by
  intro other
  rw [hs]
  by_cases ho : other = name
  · subst ho
    rw [Scope.globalRef?_insert_self, hb, if_pos (by simp)]
  · rw [Scope.globalRef?_insert_of_ne ho, h other, Graph.latestRef?_congr hg]
    simp [ho]

/-- A new value for a name that is hidden already hides nothing more. -/
theorem Shows.rebind (h : b.Shows hidden) {name : String} {binding : Binding}
    (hb : binding.globalRef? = none) (hm : b.scope.globalRef? name = none)
    (hs : b'.scope = b.scope.insert name binding) (hg : b'.graph.globals = b.graph.globals) :
    b'.Shows hidden := by
  intro other
  by_cases ho : other = name
  · -- the name stood for no variable before, so there was nothing left to hide
    subst ho
    have hn := h.hide hb hs hg other
    rw [if_pos (by simp)] at hn
    rw [hn, Graph.latestRef?_congr hg, ← h other, hm]
  · rw [hs, Scope.globalRef?_insert_of_ne ho, h other, Graph.latestRef?_congr hg]

/-- A name that stands for a variable is not hidden, and the variable is the latest. -/
theorem Shows.of_globalVar (h : b.Shows hidden) {name : String} {type : ValueType} {ref : Ref}
    (hb : b.scope.get? name = some (.globalVar type ref)) :
    name ∉ hidden ∧ b.graph.latestRef? name = some ref := by
  have hn := h name
  rw [Scope.globalRef?, hb, Option.bind_some, Binding.globalRef?] at hn
  by_cases hm : name ∈ hidden
  · simp [hm] at hn
  · rw [if_neg hm] at hn
    exact ⟨hm, hn.symm⟩

/-- A name that stands for a local value is hidden, or there is no variable to hide. -/
theorem Shows.of_local (h : b.Shows hidden) {name : String} {binding : Binding}
    (hb : b.scope.get? name = some binding) (hl : binding.globalRef? = none) :
    b.scope.globalRef? name = none ∧ ¬(name ∈ b.graph.globals.map (·.name) ∧ name ∉ hidden) := by
  have hn : b.scope.globalRef? name = none := by
    rw [Scope.globalRef?, hb, Option.bind_some, hl]
  refine ⟨hn, fun ⟨hg, hm⟩ => ?_⟩
  have hs := h name
  rw [hn, if_neg hm] at hs
  have hsome := Graph.latestRef?_isSome.mpr hg
  rw [← hs] at hsome
  simp at hsome

end Builder

/-! ## Statements -/

/-- Outputs bind nothing and declare nothing. -/
theorem OutputsLowered.frame {t : Builtins} {index : Nat} {values : List Expr} {b b' : Builder}
    (h : OutputsLowered t index values b b') (hs : b.Sound)
    (hi : index ≤ b.graph.outputs.length) :
    b'.scope = b.scope ∧ b'.graph.globals = b.graph.globals := by
  induction h with
  | nil index b => exact ⟨rfl, rfl⟩
  | @cons index value values b b₁ b₂ w h hs' ih =>
    obtain ⟨h₁, hw⟩ := h.steps hs []
    obtain ⟨hscope, hglobals, -, houtputs⟩ := h₁.frame
    have hi₁ : index ≤ b₁.graph.outputs.length := by
      rw [houtputs]
      exact hi
    have h₂ : Step t ⟨[], b₁⟩ _ := .output hw hi₁
    obtain ⟨ihs, ihg⟩ := ih (h₂.sound (hs.of_exprSteps h₁)) (Builder.lt_ensureOutput_outputs hi₁).1
    exact ⟨ihs.trans hscope, (ihg.trans (b₁.ensureOutput_globals index)).trans hglobals⟩

mutual

/-- A statement declares no variable, and hides exactly the names that it declares. -/
theorem StmtLowered.shows {t : Builtins} {condition : Option Wire} {last last' : Ref} {s : Stmt}
    {b b' : Builder} {hidden : List String} (h : StmtLowered t condition last s b last' b')
    (hs : b.Sound) (hc : ∀ w ∈ condition, b.Yields w) (hv : b.Shows hidden) :
    b'.graph.globals = b.graph.globals ∧ b'.Shows (hidden ++ s.declared) := by
  cases h with
  | declarePublic hp hi ht => exact ⟨rfl, hv.hide rfl rfl rfl⟩
  | declare hp hi he =>
    obtain ⟨hscope, hglobals, -, -⟩ := (he.steps hs []).1.frame
    exact ⟨hglobals, (hv.same hscope hglobals).hide rfl rfl rfl⟩
  | @assign _ _ target op value span _ b₁ binding new previous hb ha =>
    rw [Stmt.declared, List.append_nil]
    have hb₀ := hs.scope _ _ hb
    obtain ⟨h₁, hn, hp⟩ := ha.steps hs hb₀
    obtain ⟨h₂, -⟩ := steps_afterGating (t := t) (hb₀.mono h₁.le) hn hp
      fun w hw => (hc w hw).mono h₁.le
    obtain ⟨hscope, hglobals, -, -⟩ := ExprSteps.frame (h₁.trans h₂)
    have hv₂ := hv.same hscope hglobals
    cases binding with
    | globalVar type ref => exact ⟨hglobals, hv₂.same rfl rfl⟩
    | wire wire =>
      have hnone := (hv.of_local hb rfl).1
      rw [← hscope] at hnone
      exact ⟨hglobals, hv₂.rebind rfl hnone rfl rfl⟩
    | parameter type pin =>
      have hnone := (hv.of_local hb rfl).1
      rw [← hscope] at hnone
      exact ⟨hglobals, hv₂.rebind rfl hnone rfl rfl⟩
  | branch he ht =>
    obtain ⟨h₁, hj, -⟩ := he.steps_then hs hc
    obtain ⟨hscope, hglobals, -, -⟩ := h₁.frame
    obtain ⟨hg, hv'⟩ := ht.shows (hs.of_exprSteps h₁) hj.some (hv.same hscope hglobals)
    exact ⟨hg.trans hglobals, hv'⟩
  | branchElse he ht hn hf =>
    obtain ⟨h₁, hj, hw⟩ := he.steps_then hs hc
    obtain ⟨hscope, hglobals, -, -⟩ := h₁.frame
    have hs₁ := hs.of_exprSteps h₁
    obtain ⟨hg, hv'⟩ := ht.shows hs₁ hj.some (hv.same hscope hglobals)
    have h₂ := ht.steps hs₁ hj.some
    obtain ⟨h₃, hj'⟩ := steps_else (t := t) hn (hw.mono h₂.le)
      fun w hw => ((hc w hw).mono h₁.le).mono h₂.le
    obtain ⟨hscope', hglobals', -, -⟩ := h₃.frame
    have hs₃ := (h₂.sound hs₁).of_exprSteps h₃
    obtain ⟨hg', hv''⟩ := hf.shows hs₃ hj'.some (hv'.same hscope' hglobals')
    rw [Stmt.declared, ← List.append_assoc]
    exact ⟨((hg'.trans hglobals').trans hg).trans hglobals, hv''⟩
  | ret h =>
    rw [Stmt.declared, List.append_nil]
    obtain ⟨hscope, hglobals⟩ := h.frame hs (Nat.zero_le _)
    exact ⟨hglobals, hv.same hscope hglobals⟩
  | call h =>
    rw [Stmt.declared, List.append_nil]
    obtain ⟨hscope, hglobals, -, -⟩ := (h.steps hs []).1.frame
    exact ⟨hglobals, hv.same hscope hglobals⟩

/-- The same for statements one after another. -/
theorem BodyLowered.shows {t : Builtins} {condition : Option Wire} {last last' : Ref}
    {body : List Stmt} {b b' : Builder} {hidden : List String}
    (h : BodyLowered t condition last body b last' b') (hs : b.Sound)
    (hc : ∀ w ∈ condition, b.Yields w) (hv : b.Shows hidden) :
    b'.graph.globals = b.graph.globals ∧ b'.Shows (hidden ++ Stmt.bodyDeclared body) := by
  cases h with
  | nil =>
    rw [Stmt.bodyDeclared, List.append_nil]
    exact ⟨rfl, hv⟩
  | cons h hr hs' =>
    obtain ⟨hg₁, hv₁⟩ := h.shows hs hc hv
    have h₁ := h.steps hs hc
    obtain ⟨hg₂, hv₂⟩ := hs'.shows (h₁.sound hs) (fun w hw => (hc w hw).mono h₁.le) hv₁
    rw [Stmt.bodyDeclared, ← List.append_assoc]
    exact ⟨hg₂.trans hg₁, hv₂⟩

end

/-! ## Programs -/

/-- The variables of a graph are the declared ones, and after the declarations every name that has
one stands for it. -/
theorem GlobalsLowered.shows {ds : List Declaration} {b b' : Builder} (h : GlobalsLowered ds b b')
    (hv : b.Shows []) :
    b'.graph.globals.map (·.name) = b.graph.globals.map (·.name) ++ ds.map (·.name.text) ∧
      b'.Shows [] := by
  induction h with
  | nil b => exact ⟨by simp, hv⟩
  | @cons d ds b b' type default ht hd hs ih =>
    have hv₁ : (b.declareGlobal d.name.text type default).Shows [] := by
      intro name
      rw [Graph.latestRef?_declare (g := b.graph) rfl]
      by_cases hn : d.name.text = name
      · subst hn
        rw [if_neg List.not_mem_nil, if_pos rfl]
        exact Scope.globalRef?_insert_self _ _ _
      · simp only [List.not_mem_nil, if_false, hn]
        have hother := Scope.globalRef?_insert_of_ne (Ne.symm hn) b.scope (.globalVar type b.next)
        exact hother.trans (hv name)
    obtain ⟨hg, hv'⟩ := ih hv₁
    refine ⟨?_, hv'⟩
    rw [hg]
    simp [Builder.declareGlobal]

/-- A parameter hides its name. -/
theorem ParamsLowered.shows {pin : Nat} {ps : List Parameter} {b b' : Builder}
    {hidden : List String} (h : ParamsLowered pin ps b b') (hv : b.Shows hidden) :
    b'.graph.globals = b.graph.globals ∧ b'.Shows (hidden ++ ps.map (·.name.text)) := by
  induction h generalizing hidden with
  | nil pin b => exact ⟨rfl, by simpa using hv⟩
  | @cons pin p ps b b' type ht hs ih =>
    have hv₁ : (b.addInput p.name.text type pin).Shows (hidden ++ [p.name.text]) :=
      hv.hide rfl rfl rfl
    obtain ⟨hg, hv'⟩ := ih hv₁
    rw [List.append_assoc] at hv'
    exact ⟨hg, hv'⟩

theorem Builder.shows_start (first : Ref) : (Builder.start first).Shows [] := by
  intro name
  simp [Builder.start, Scope.globalRef?, Graph.latestRef?, Graph.empty]

end ScriptGraph
