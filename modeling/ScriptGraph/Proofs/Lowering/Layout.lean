import ScriptGraph.Proofs.Compilation
import ScriptGraph.Proofs.Lowering.Alike
import ScriptGraph.Proofs.Parsing.Layout
import ScriptGraph.Proofs.Token.Rescanning

/-!
# The layout of a source does not count

Lowering copies places into its errors and does nothing else with them. Together with the same fact
about readers this says that a compilation depends on the tokens of its source alone.

* `LoweringError.unplaced`, `CompileError.unplaced` — errors without their places;
* `Program.alike_unplaced` — a program is alike to the one without its places;
* `Program.lower_unplaced` — a program without its places is lowered alike;
* `compile_layout` — sources with the same tokens are compiled alike, and so are texts that differ
  in their white space only.
-/

namespace ScriptGraph

open Lowering

/-- The cause of an error with all that it reports but its place. -/
def LoweringError.unplaced : LoweringError → LoweringError
  | .unknownIdentifier _ name => .unknownIdentifier ⟨0, 0⟩ name
  | .unknownMember _ receiver member => .unknownMember ⟨0, 0⟩ receiver member
  | .unknownOperator operator operand => .unknownOperator operator operand
  | .invalidComponent _ receiver member => .invalidComponent ⟨0, 0⟩ receiver member
  | .unknownType _ name => .unknownType ⟨0, 0⟩ name
  | .uninitializedLocal _ name => .uninitializedLocal ⟨0, 0⟩ name
  | .unreachableStatement _ => .unreachableStatement ⟨0, 0⟩
  | .publicInitializer _ name => .publicInitializer ⟨0, 0⟩ name

/-- The cause of an error with all that it reports but its place. -/
def CompileError.unplaced : CompileError → CompileError
  | .source e => .source e.unplaced
  | .lowering e => .lowering e.unplaced
  | e => e

/-! ## Programs without their places -/

/-- All places count as one, and no name may be spelled in another way. -/
def Leeway.layout : Leeway where
  free _ := False
  near _ _ := True

/-- Errors without their places show no difference in places. -/
theorem Leeway.layout_blurs : layout.Blurs LoweringError.unplaced := by
  intro e e' h
  cases h with
  | unknownIdentifier h =>
    rw [LoweringError.unplaced, LoweringError.unplaced, h.text_eq (·.1)]
  | unknownMember hr hm =>
    rw [LoweringError.unplaced, LoweringError.unplaced, hm.text_eq not_false]
  | _ => rfl

theorem Name.alike_unplaced {free : Prop} (name : Name) :
    name.Alike .layout free name.unplaced :=
  .of_text_eq trivial rfl

mutual

theorem Expr.alike_unplaced : ∀ e : Expr, e.Alike .layout e.unplaced
  | .number value => .number value
  | .var name => .var name.alike_unplaced
  | .neg inner => .neg inner.alike_unplaced
  | .not inner => .not inner.alike_unplaced
  | .binary op left right => .binary op left.alike_unplaced right.alike_unplaced
  | .call receiver member args =>
    .call receiver.alike_unplaced member.alike_unplaced (Expr.argsAlike_unplaced args)
  | .construct type args => .construct type.alike_unplaced (Expr.argsAlike_unplaced args)

theorem Expr.argsAlike_unplaced :
    ∀ args : List Expr, Expr.ArgsAlike .layout args (Expr.mapArgs .unplaced args)
  | [] => .nil
  | arg :: args => .cons arg.alike_unplaced (Expr.argsAlike_unplaced args)

end

theorem Declaration.alike_unplaced (d : Declaration) : d.Alike .layout (d.map .unplaced) where
  type := rfl
  name := d.name.alike_unplaced
  init := by
    rw [map]
    cases d.init with
    | none => exact .none
    | some init => exact .some init.alike_unplaced
  isPublic := rfl

mutual

theorem Stmt.alike_unplaced : ∀ s : Stmt, s.Alike .layout (s.map .unplaced)
  | .declare d _ => .declare trivial d.alike_unplaced
  | .assign target op value _ =>
    .assign op trivial target.alike_unplaced value.alike_unplaced
  | .branch test thenBody none _ =>
    .branch trivial test.alike_unplaced (Stmt.bodyAlike_unplaced thenBody)
  | .branch test thenBody (some elseBody) _ =>
    .branchElse trivial test.alike_unplaced (Stmt.bodyAlike_unplaced thenBody)
      (Stmt.bodyAlike_unplaced elseBody)
  | .ret values _ => .ret trivial (Expr.argsAlike_unplaced values)
  | .call receiver member args _ =>
    .call trivial (Expr.call receiver member args).alike_unplaced

theorem Stmt.bodyAlike_unplaced :
    ∀ body : List Stmt, Stmt.BodyAlike .layout body (Stmt.mapBody .unplaced body)
  | [] => .nil
  | s :: rest => .cons s.alike_unplaced (Stmt.bodyAlike_unplaced rest)

end

theorem Method.alike_unplaced (m : Method) : m.Alike .layout (m.map .unplaced) where
  name := m.name.alike_unplaced
  params := by
    rw [map, List.forall₂_map_right_iff]
    exact List.forall₂_same.mpr fun p _ => ⟨rfl, p.name.alike_unplaced⟩
  body := Stmt.bodyAlike_unplaced m.body

/-- A program is alike but for its places to the program without them. -/
theorem Program.alike_unplaced (p : Program) : p.Alike .layout p.unplaced := by
  rw [Program.Alike, unplaced, map, List.forall₂_map_right_iff]
  refine List.forall₂_same.mpr fun item _ => ?_
  cases item with
  | method m => exact .method m.alike_unplaced
  | globalVar d => exact .globalVar d.alike_unplaced

/-! ## Compilations -/

/-- A program without its places has the same graph, or is refused for the same reason. -/
theorem Program.lower_unplaced (p : Program) (t : Builtins) (first : Ref) :
    (p.unplaced.lower t first).mapError LoweringError.unplaced =
      (p.lower t first).mapError LoweringError.unplaced :=
  Program.lower_alike Leeway.layout_blurs p.alike_unplaced (fun _ _ => not_false) t first

namespace Options

variable {o : Options}

/-- What a compilation yields, or why it fails, follows from the program without its places. -/
theorem compile_unplaced (hf : ¬ o.first < 1) (source : String) :
    (o.compile source).mapError CompileError.unplaced =
      ((Program.unplacedReading (Program.parse source)).mapError CompileError.source).bind fun p =>
        (((p.lower o.builtins o.first).mapError LoweringError.unplaced).mapError
          CompileError.lowering).map fun g => ⟨g.repair, g.report⟩ := by
  rw [compile]
  rcases Program.parse source with e | p
  · simp only [hf, if_false]
    rfl
  · simp only [hf, if_false, Program.unplacedReading, bind, Except.bind, mapError_ok, Except.map,
      p.lower_unplaced]
    rcases p.lower o.builtins o.first with _ | _ <;> rfl

/-- The tokens of a source decide on the outcome of its compilation but for the places of errors. -/
theorem compile_of_tokens_eq {a b : String} {ts us : List Lexeme} (ha : tokenize a = .ok ts)
    (hb : tokenize b = .ok us) (h : ts.map Lexeme.token = us.map Lexeme.token) :
    (o.compile a).mapError CompileError.unplaced =
      (o.compile b).mapError CompileError.unplaced := by
  by_cases hf : o.first < 1
  · simp only [compile, hf, if_true]
    rfl
  · rw [compile_unplaced hf, compile_unplaced hf, Program.parse_of_tokens_eq ha hb h]

end Options

/-- Texts of the same tokens, with any white space between them, are scanned to the same tokens, the
depths of brackets included. -/
theorem tokens_eq_of_laid {ts : List Token} {a b : String} (hs : ∀ t ∈ ts, t.isSpelled = true)
    (ha : Laid ts a.toList) (hb : Laid ts b.toList) :
    ∃ ls us, tokenize a = .ok ls ∧ tokenize b = .ok us ∧
      ls.map Lexeme.token = us.map Lexeme.token := by
  obtain ⟨ls, e, hls, he, hflat⟩ := tokenize_laid ha hs
  obtain ⟨us, e', hus, he', hflat'⟩ := tokenize_laid hb hs
  obtain ⟨ls₁, e₁, heq, -, -, hfit⟩ := tokenize_ok hls
  obtain ⟨us₁, e₁', heq', -, -, hfit'⟩ := tokenize_ok hus
  obtain ⟨rfl, -⟩ := List.append_inj' heq rfl
  obtain ⟨rfl, -⟩ := List.append_inj' heq' rfl
  have htokens := hfit.tokens_eq hfit' (hflat.trans hflat'.symm)
  exact ⟨_, _, hls, hus, by simp [htokens, he, he']⟩

/-- **Layout independence.** Two sources with the same tokens are compiled alike under the same
options: to the same graph with the same report, or they fail for the same reason, with all that an
error reports but its place. In particular this holds of two texts that differ in their white space
only. -/
theorem compile_layout (o : Options) :
    (∀ {a b : String} {ts us : List Lexeme}, tokenize a = .ok ts → tokenize b = .ok us →
      ts.map Lexeme.token = us.map Lexeme.token →
        (o.compile a).mapError CompileError.unplaced =
          (o.compile b).mapError CompileError.unplaced) ∧
    ∀ {ts : List Token} {a b : String}, (∀ t ∈ ts, t.isSpelled = true) → Laid ts a.toList →
      Laid ts b.toList →
        (o.compile a).mapError CompileError.unplaced =
          (o.compile b).mapError CompileError.unplaced := by
  refine ⟨Options.compile_of_tokens_eq, fun hs ha hb => ?_⟩
  obtain ⟨_, _, hls, hus, htokens⟩ := tokens_eq_of_laid hs ha hb
  exact Options.compile_of_tokens_eq hls hus htokens

/-- A program on one line that takes a component which does not exist, so that it is refused. -/
def tight : String :=
  "Vector2 v;def Main()\x7bif(v.X()>=-1)\x7breturn(v.W());\x7d\x7d"

/-- The same program with more white space. -/
def loose : String :=
  "Vector2 v ;\ndef Main ( )\n\x7b\n\tif ( v. X ( ) >= - 1 ) \x7b return ( v.\nW ( ) ) ; \x7d\n\x7d\n"

theorem compile_layout_loose :
    ∃ ts us, tokenize tight = .ok ts ∧ tokenize loose = .ok us ∧
      ts.map Lexeme.token = us.map Lexeme.token ∧ ts ≠ us ∧
      (({} : Options).compile tight).mapError CompileError.unplaced =
        (({} : Options).compile loose).mapError CompileError.unplaced := by
  have hsame : (tokenize tight).toOption.map (·.map Lexeme.token) =
      (tokenize loose).toOption.map (·.map Lexeme.token) := by
    decide +kernel
  have hplaces : (tokenize tight).toOption ≠ (tokenize loose).toOption := by
    decide +kernel
  have hscanned : (tokenize tight).toOption.isSome = true ∧
      (tokenize loose).toOption.isSome = true := by
    decide +kernel
  rcases ha : tokenize tight with e | ts
  · rw [ha] at hscanned
    cases hscanned.1
  rcases hb : tokenize loose with e | us
  · rw [hb] at hscanned
    cases hscanned.2
  rw [ha, hb] at hsame hplaces
  have htokens : ts.map Lexeme.token = us.map Lexeme.token := Option.some.inj hsame
  exact ⟨ts, us, rfl, rfl, htokens, fun h => hplaces (congrArg some h),
    (compile_layout {}).1 ha hb htokens⟩

end ScriptGraph
