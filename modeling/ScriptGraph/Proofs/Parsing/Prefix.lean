import ScriptGraph.Proofs.Parsing.Agreement
import ScriptGraph.Proofs.Parsing.Completeness
import ScriptGraph.Proofs.Parsing.Soundness

/-!
# The first error of a source

What the reader says of some tokens it says for good: a program is accepted, an unfinished one can be
finished, and a wrong one stays wrong, with the same error, whatever follows
(`Program.verdict_of_fits`). The first error never depends on later text, and its cause tells an
unfinished program from a wrong one.
-/

namespace ScriptGraph

open ScriptGraph.Parser

theorem Depths.ne_eof_of_mem_assign {d : Depths} {w : List Lexeme} (h : ∀ l ∈ w, l.token ≠ .eof) :
    ∀ l ∈ d.assign w, l.token ≠ .eof := by
  induction w generalizing d with
  | nil => exact nofun
  | cons l w ih =>
    obtain ⟨hl, hw⟩ := List.forall_mem_cons.mp h
    refine List.forall_mem_cons.mpr ⟨fun he => hl ?_, ih hw⟩
    have hflat : l.token.flat = .eof := by
      rw [← Depths.flat_mark d, show d.mark l.token = .eof from he]
      rfl
    exact Token.eq_of_flat hflat rfl

theorem SourceError.not_isUnfinished_of_isRejection {e : SourceError} (h : e.isRejection = true) :
    ¬ e.isUnfinished = true := by
  intro hu
  cases e <;> cases h <;> cases hu

namespace Parser

/-- The place of the token read last does not matter before the first token. -/
theorem run_program_last {c c' : Cursor} {e : SourceError} (h : program.run c = .error e c') (s : Span) :
    ∃ c'', program.run { c with last := s } = .error e c'' := by
  rcases c with ⟨_ | ⟨l, rest⟩, stop, last⟩
  · simp [program, programBy, items] at h
  · by_cases he : l.token = .eof
    · simp [program, programBy, items, he] at h
    by_cases hk : l.token.sameKind .keyDef = true
    · exact ⟨c', by simpa [program, programBy, items, he, hk] using h⟩
    by_cases ht : l.token.sameKind (.typeName "") = true
    · refine ⟨c', ?_⟩
      cases hl : l.token <;> simp [hl, Token.sameKind, Token.bare] at ht
      simpa [program, programBy, items, globalVar, hl, Token.sameKind, Token.bare] using h
    · simp [program, programBy, items, he, hk, ht] at h ⊢
      exact h.1

end Parser

namespace Program

theorem ofTokens_of_ok {ts : List Lexeme} {p : Program} {c : Cursor}
    (h : program.run (Cursor.ofTokens ts) = .ok p c) : ofTokens ts = .ok p := by
  rw [ofTokens, show program (Cursor.ofTokens ts) = .ok p c from h]

/-- Tokens with the depths they must have are read as the program that is derived from them. -/
theorem ofTokens_of_derived {tokens w : List Lexeme} {is : List Item}
    (h : ItemsDerived ArgsDerived w is) (hrest : (Cursor.ofTokens tokens).rest = Depths.zero.assign w) :
    ofTokens tokens = .ok ⟨is⟩ := by
  have hrun := h.run_program .zero (Cursor.ofTokens tokens).stop (Cursor.ofTokens tokens).last
  rw [← hrest] at hrun
  exact ofTokens_of_ok hrun

theorem ofTokens_of_error {ts : List Lexeme} {e : SourceError} {c : Cursor}
    (h : program.run (Cursor.ofTokens ts) = .error e c) : ofTokens ts = .error e := by
  rw [ofTokens, show program (Cursor.ofTokens ts) = .error e c from h]

/-! ## The three verdicts -/

/-- The tokens make up a program. -/
def Accepts (ts : List Lexeme) : Prop :=
  ∃ p, ofTokens ts = .ok p

/-- The tokens are the start of a program, and the error says that they are no more. -/
def IsUnfinished (ts : List Lexeme) : Prop :=
  (∃ e, ofTokens ts = .error e ∧ e.isUnfinished = true) ∧
    ∃ us, (∀ l ∈ us, l.token ≠ .eof) ∧ Depths.zero.Fits (ts ++ us) ∧ Accepts (ts ++ us)

/-- The tokens start no program, and the error is the same whatever follows them. -/
def IsWrong (ts : List Lexeme) : Prop :=
  ∃ e, ofTokens ts = .error e ∧ e.isRejection = true ∧ ∀ us, ofTokens (ts ++ us) = .error e

variable {ts : List Lexeme} {e : SourceError} {c : Cursor}

/-- The start of a program is finished by the rest of a derivation, with the depths it has there. -/
theorem exists_continuation (hts : ∀ l ∈ ts, l.token ≠ .eof) (hfit : Depths.zero.Fits ts)
    {v : List Lexeme} {is : List Item} (h : ItemsDerived ArgsDerived (ts.map Lexeme.flat ++ v) is) :
    ∃ us, (∀ l ∈ us, l.token ≠ .eof) ∧ Depths.zero.Fits (ts ++ us) ∧ Accepts (ts ++ us) := by
  have hus : ts ++ (Depths.zero.after ts).assign v =
      Depths.zero.assign (ts.map Lexeme.flat ++ v) := by
    rw [Depths.assign_append, Depths.assign_flat, Depths.after_flat, hfit]
  have hv : ∀ l ∈ (Depths.zero.after ts).assign v, l.token ≠ .eof :=
    Depths.ne_eof_of_mem_assign fun l hl => h.balanced.ne_eof l (List.mem_append_right _ hl)
  refine ⟨_, hv, by rw [hus]; exact Depths.fits_assign .., ⟨is⟩, ofTokens_of_derived h ?_⟩
  rw [Cursor.rest_ofTokens_of_ne_eof, hus]
  exact fun l hl => (List.mem_append.mp hl).elim (hts l) (hv l)

/-- A rejection stays, whatever follows. -/
theorem error_of_append (hts : ∀ l ∈ ts, l.token ≠ .eof) (hfit : Depths.zero.Fits ts)
    (h : program.run (Cursor.ofTokens ts) = .error e c) (he : e.isRejection = true)
    (us : List Lexeme) : ofTokens (ts ++ us) = .error e := by
  have hrest := Cursor.rest_ofTokens_of_ne_eof hts
  have hc : (Cursor.ofTokens ts).At .zero (Cursor.ofTokens ts).rest.length :=
    ⟨by rwa [hrest], by rwa [hrest], Nat.le_refl _⟩
  -- The tokens up to the next end mark follow, and the place of that mark is the new end.
  let x : Continuation := some ((Cursor.ofTokens us).rest, (Cursor.ofTokens (ts ++ us)).stop)
  have hsame := (Follows.program (closes_eatExact (x := x)) hc).same (by rw [h]; exact .inr he)
  rw [h] at hsame
  obtain ⟨c', hrun⟩ := run_program_last hsame (Cursor.ofTokens (ts ++ us)).last
  have hstart : { (Cursor.ofTokens ts).extend x with last := (Cursor.ofTokens (ts ++ us)).last } =
      Cursor.ofTokens (ts ++ us) := by
    have happ : (Cursor.ofTokens (ts ++ us)).rest = ts ++ (Cursor.ofTokens us).rest := by
      rw [Cursor.rest_ofTokens, List.takeWhile_append_of_pos fun l hl => by simpa using hts l hl,
        ← Cursor.rest_ofTokens]
    simp [Cursor.extend, x, hrest, ← happ]
  rw [hstart] at hrun
  exact ofTokens_of_error hrun

/-- Exactly one of three verdicts holds of the start of a text: it is a program, it is unfinished, or it
is wrong. -/
theorem verdict_of_fits (hts : ∀ l ∈ ts, l.token ≠ .eof) (hfit : Depths.zero.Fits ts) :
    (Accepts ts ∧ ¬ IsUnfinished ts ∧ ¬ IsWrong ts) ∨
    (IsUnfinished ts ∧ ¬ Accepts ts ∧ ¬ IsWrong ts) ∨
    (IsWrong ts ∧ ¬ Accepts ts ∧ ¬ IsUnfinished ts) := by
  have hrest := Cursor.rest_ofTokens_of_ne_eof hts
  have hf := program_fulfils (c := Cursor.ofTokens ts) (by rwa [hrest])
  rcases hr : program.run (Cursor.ofTokens ts) with ⟨p, c⟩ | ⟨e, c⟩
  · have ho := ofTokens_of_ok hr
    refine .inl ⟨⟨p, ho⟩, ?_, ?_⟩
    · rintro ⟨⟨e, he, -⟩, -⟩
      cases ho.symm.trans he
    · rintro ⟨e, he, -⟩
      cases ho.symm.trans he
  · have ho := ofTokens_of_error hr
    have hno : ¬ Accepts ts := by
      rintro ⟨p, hp⟩
      cases ho.symm.trans hp
    rw [hr] at hf
    rcases hf with he | ⟨he, v, p, hp, -⟩
    · refine .inr (.inr ⟨⟨e, ho, he, error_of_append hts hfit hr he⟩, hno, ?_⟩)
      rintro ⟨⟨e', ho', he'⟩, -⟩
      cases ho.symm.trans ho'
      exact SourceError.not_isUnfinished_of_isRejection he he'
    · rw [hrest] at hp
      refine .inr (.inl ⟨⟨⟨e, ho, he⟩, exists_continuation hts hfit hp⟩, hno, ?_⟩)
      rintro ⟨e', ho', he', -⟩
      cases ho.symm.trans ho'
      exact SourceError.not_isUnfinished_of_isRejection he' he

/-- The start of a method, up to its first parameter. -/
def openMethod : List Lexeme :=
  [⟨.keyDef, ⟨0, 3⟩⟩, ⟨.ident "Main", ⟨4, 8⟩⟩, ⟨.lparen 0, ⟨8, 9⟩⟩, ⟨.typeName "int", ⟨9, 12⟩⟩]

theorem verdict_of_fits_openMethod :
    IsUnfinished openMethod ∧ ¬ Accepts openMethod ∧ ¬ IsWrong openMethod := by
  have ho : ofTokens openMethod = .error (.unexpectedEnd ⟨12, 12⟩ "parameter name") := rfl
  have hts : ∀ l ∈ openMethod, l.token ≠ .eof := by decide
  rcases verdict_of_fits hts (by decide) with ⟨⟨p, hp⟩, -⟩ | h | ⟨⟨e, he, hr, -⟩, -⟩
  · cases ho.symm.trans hp
  · exact h
  · cases ho.symm.trans he
    cases hr

end Program

end ScriptGraph
