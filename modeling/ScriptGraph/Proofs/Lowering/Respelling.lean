import ScriptGraph.Proofs.Lowering.Alike

/-!
# Spellings of builtin names

A name that a program binds nowhere can only mean a builtin, and builtins are found whatever the
case of their letters. So such names may be spelled in any case, in all of a program at once: the
opcode, and with it the type of a result, on which the operators around it depend, stay the same.

* `Leeway.respelling`, `Program.Respelled` — programs that differ in the spelling of names which are
  not bound;
* `LoweringError.folded` — an error with the names of builtins in lower case;
* `lower_respelled` — such programs have the same graph, or are refused for the same reason.
-/

namespace ScriptGraph

/-- Names that are not bound may be spelled in another case; places may not change. -/
def Leeway.respelling (bound : List String) : Leeway where
  free name := name ∉ bound
  near := Eq

/-- Programs that differ in the spelling of names that are bound nowhere. Names in declarations do
not differ, so both programs bind the same names. -/
def Program.Respelled (p p' : Program) : Prop :=
  p.Alike (.respelling p.bound) p'

/-- The cause of an error, with the names of builtins in lower case. All else that it reports is as
it was, its place in particular. -/
def LoweringError.folded : LoweringError → LoweringError
  | .unknownIdentifier span name => .unknownIdentifier span (Text.lower name)
  | .unknownMember span receiver member => .unknownMember span receiver (Text.lower member)
  | e => e

/-- Errors show no difference in spelling once the names of builtins are in lower case. -/
theorem Leeway.respelling_blurs (bound : List String) :
    (respelling bound).Blurs LoweringError.folded := by
  intro e e' h
  cases h with
  | unknownIdentifier h => rw [LoweringError.folded, LoweringError.folded, h.near, h.lower]
  | unknownMember hr hm => rw [LoweringError.folded, LoweringError.folded, hr, hm.lower]
  | invalidComponent h => rw [h]
  | unknownType h => rw [h]
  | uninitializedLocal h => rw [h]
  | unreachableStatement h => rw [h]
  | publicInitializer h => rw [h]

/-- **The spelling of builtins does not count.** Take two programs that differ in the case of
letters only, and that only in names of variables which are bound nowhere, and of functions whose
receiver is bound nowhere. With the same table and the same first id both have the same graph, or
both are refused for the same reason at the same place, where the names of builtins that an error
reports are again the same but for the case of their letters. -/
theorem lower_respelled {p p' : Program} (h : p.Respelled p') (t : Builtins) (first : Ref) :
    (p'.lower t first).mapError LoweringError.folded =
      (p.lower t first).mapError LoweringError.folded :=
  Program.lower_alike (Leeway.respelling_blurs p.bound) h (fun _ hname => not_not_intro hname) t
    first

/-- A program that reads a key and applies a function to an input. The input has the name of a
function itself, in a spelling of its own. -/
def steering (sine key : String) : Program :=
  let x : Name := ⟨"x", ⟨6, 7⟩⟩
  let input : Name := ⟨"Sin", ⟨24, 27⟩⟩
  let turn : Stmt :=
    .assign x .add (.binary .mul (.call ⟨"Math", ⟨53, 57⟩⟩ ⟨sine, ⟨58, 61⟩⟩ [.neg (.var input)])
      (.var x)) ⟨48, 72⟩
  ⟨[.globalVar ⟨"float", x, none, false⟩,
    .method ⟨⟨"Main", ⟨13, 17⟩⟩, [⟨"float", input⟩],
      [.branch (.binary .gt (.var ⟨key, ⟨35, 40⟩⟩) (.number 0)) [turn] none ⟨31, 74⟩,
        .ret [.var x] ⟨75, 86⟩]⟩]⟩

/-- Spelled with capital letters, the function and the key are found as before, and a function that
does not exist is missed as before. -/
theorem lower_respelled_steering :
    (∃ g, (steering "sin" "w_key").lower Builtins.standard 1 = .ok g ∧
      (steering "SIN" "W_Key").lower Builtins.standard 1 = .ok g) ∧
    ((steering "SEC" "W_Key").lower Builtins.standard 1).mapError LoweringError.folded =
      .error (.unknownMember ⟨53, 57⟩ "Math" "sec") := by
  let k := Leeway.respelling ["x", "Sin"]
  have hsame : ∀ {free : Prop} (name : Name), name.Alike k free name :=
    fun _ => .of_text_eq rfl rfl
  have hkey : Name.AlikeUse k ⟨"w_key", ⟨35, 40⟩⟩ ⟨"W_Key", ⟨35, 40⟩⟩ :=
    have hfree : "w_key" ∉ ["x", "Sin"] ∧ "W_Key" ∉ ["x", "Sin"] := by decide
    ⟨rfl, by decide +kernel, fun _ => hfree⟩
  have hsteering : ∀ sine sine', Text.lower sine' = Text.lower sine →
      (steering sine "w_key").Respelled (steering sine' "W_Key") := by
    intro sine sine' hs
    have hsine : Name.Alike k ("Math" ∉ ["x", "Sin"]) ⟨sine, ⟨58, 61⟩⟩ ⟨sine', ⟨58, 61⟩⟩ :=
      ⟨rfl, hs, fun _ => by decide⟩
    have hcall := Expr.Alike.call (hsame ⟨"Math", ⟨53, 57⟩⟩) hsine
      (.cons (.neg (.var (hsame ⟨"Sin", ⟨24, 27⟩⟩))) .nil)
    have hturn := Stmt.Alike.assign .add (Eq.refl (⟨48, 72⟩ : Span)) (hsame ⟨"x", ⟨6, 7⟩⟩)
      (.binary .mul hcall (.var (hsame ⟨"x", ⟨6, 7⟩⟩)))
    have hbranch := Stmt.Alike.branch (Eq.refl (⟨31, 74⟩ : Span))
      (.binary .gt (.var hkey) (.number 0)) (.cons hturn .nil)
    have hret := Stmt.Alike.ret (Eq.refl (⟨75, 86⟩ : Span))
      (.cons (.var (hsame ⟨"x", ⟨6, 7⟩⟩)) .nil)
    exact .cons (.globalVar ⟨rfl, hsame _, .none, rfl⟩)
      (.cons (.method ⟨hsame _, .cons ⟨rfl, hsame _⟩ .nil, .cons hbranch (.cons hret .nil)⟩) .nil)
  refine ⟨?_, ?_⟩
  · have hlower := lower_respelled (hsteering "sin" "SIN" (by decide +kernel))
      Builtins.standard 1
    have hok : ((steering "sin" "w_key").lower Builtins.standard 1).toOption.isSome = true := by
      decide +kernel
    rcases hg : (steering "sin" "w_key").lower Builtins.standard 1 with e | g
    · rw [hg] at hok
      cases hok
    rcases hg' : (steering "SIN" "W_Key").lower Builtins.standard 1 with e | g' <;>
      rw [hg, hg'] at hlower <;> cases hlower
    exact ⟨g, rfl, rfl⟩
  · rw [lower_respelled (hsteering "sec" "SEC" (by decide +kernel))]
    decide +kernel

end ScriptGraph
