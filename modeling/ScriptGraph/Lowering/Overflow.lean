import ScriptGraph.Graph.Numbering
import ScriptGraph.Lowering.Program

/-!
# Ids of 32 bits

`Program.lower` counts ids up without an end. In the program an id has 32 bits, and the counter runs
out behind `Ref.limit`. What happens then is not said by the language but by the way in which the
program was built: with checks of its arithmetic it stops there, without them it goes on from the
lowest number.

Lowering only counts ids up and never looks at them. So a build with checks stops just if the counter
of `Program.lower` ends above the limit, also where an error would come later, and in a build without
them the ids are those of `Program.lower` but for their higher bits.
-/

namespace ScriptGraph

/-- What a build of the program does when a sum has no place in its bits. -/
inductive Overflow : Type where
  /-- it stops -/
  | stops
  /-- it goes on from the lowest number -/
  | wraps
  deriving DecidableEq, Repr

/-- The id that is next when lowering is done, or when it is refused. -/
def Program.nextRef (p : Program) (builtins : Builtins) (first : Ref) : Ref :=
  match Lowering.program builtins p (Builder.start first) with
  | .ok _ b => b.next
  | .error _ b => b.next

/-- The graph of a program in a build, with ids of 32 bits. Where the build stops there is no answer
at all, not even an error. -/
def Program.generate (p : Program) (overflow : Overflow) (builtins : Builtins) (first : Ref) :
    Option (Except LoweringError Graph) :=
  match overflow with
  | .stops =>
    if p.nextRef builtins first ≤ Ref.limit then some (p.lower builtins first) else none
  | .wraps => some ((p.lower builtins first).map (Graph.rename Ref.wrap))

end ScriptGraph
