import ScriptGraph.Compilation

/-!
# Stages of a compilation

A compilation that succeeds went through all its stages. Here it is taken apart, so that what is
known of the stages is known of the whole.
-/

namespace ScriptGraph

/-! An error of a stage is wrapped, and a result is passed on. -/

theorem mapError_error {ε ε' α : Type} (f : ε → ε') (e : ε) :
    (Except.error e : Except ε α).mapError f = .error (f e) :=
  rfl

theorem mapError_ok {ε ε' α : Type} (f : ε → ε') (a : α) :
    (Except.ok a : Except ε α).mapError f = .ok a :=
  rfl

/-- A program that passes the check of its methods has the entry method. -/
theorem Program.entry?_of_checkEntry {p : Program} (h : p.checkEntry = .ok ()) :
    ∃ m, p.entry? = some m := by
  rw [Program.checkEntry] at h
  rw [Program.entry?]
  generalize p.methods = ms at h
  cases ms with
  | nil => cases h
  | cons m ms =>
    rw [Program.checkMethods] at h
    split at h
    · cases h
    · rename_i hn
      exact ⟨m, List.find?_cons_of_pos (by simpa using hn)⟩

/-- The parts of a source that was read. -/
theorem Program.parse_eq_ok {source : String} {p : Program} :
    Program.parse source = .ok p ↔
      ∃ tokens, tokenize source = .ok tokens ∧ Program.ofTokens tokens = .ok p ∧
        p.checkEntry = .ok () := by
  rw [Program.parse]
  rcases tokenize source with e | tokens
  · simp [bind, Except.bind]
  · rcases hp : Program.ofTokens tokens with e | p'
    · simp [hp, bind, Except.bind]
    rcases hc : p'.checkEntry with e | _ <;> simp [hp, hc, bind, Except.bind, pure, Except.pure]
    · rintro rfl h
      cases hc.symm.trans h
    · rintro rfl
      exact hc

/-- So has a program that was read from a source. -/
theorem Program.entry?_of_parse {source : String} {p : Program} (h : Program.parse source = .ok p) :
    ∃ m, p.entry? = some m := by
  obtain ⟨_, _, _, hc⟩ := Program.parse_eq_ok.mp h
  exact Program.entry?_of_checkEntry hc

/-- The parts of a compilation that succeeded. -/
theorem Options.compile_ok {o : Options} {source : String} {c : Compiled}
    (h : o.compile source = .ok c) :
    1 ≤ o.first ∧ ∃ p g, Program.parse source = .ok p ∧ p.lower o.builtins o.first = .ok g ∧
      c = ⟨g.repair, g.report⟩ := by
  rw [Options.compile] at h
  by_cases hf : o.first < 1
  · simp [hf, bind, Except.bind, throw, throwThe, MonadExceptOf.throw] at h
  · rcases hp : Program.parse source with e | p
    · simp [hf, hp, bind, Except.bind, mapError_error] at h
    · rcases hg : p.lower o.builtins o.first with e | g
      · simp [hf, hp, hg, bind, Except.bind, mapError_ok, mapError_error] at h
      · simp only [hf, hp, hg, bind, Except.bind, mapError_ok, pure, Except.pure, if_false] at h
        cases h
        exact ⟨Int.not_lt.mp hf, p, g, rfl, hg, rfl⟩

end ScriptGraph
