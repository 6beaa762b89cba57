import ScriptGraph.Rounding

/-!
# Binary floating point with 24 significant bits

Number literals, node positions and literal values are binary floating-point numbers of 32 bits.
Every finite one is a whole multiple of the smallest positive one, `2⁻¹⁴⁹`, so a finite number is
kept as a sign and a count of these *quanta*:

* two finite numbers are equal exactly if sign and count are, and a zero keeps its sign;
* rounding is division of natural numbers, without approximation;
* only counts with at most 24 significant bits arise, since every number is made by `ofRatio` or
  `ofInt`.
-/

namespace ScriptGraph

/-- A binary floating-point number of 32 bits. -/
inductive Binary32 : Type where
  /-- the result of no number -/
  | nan
  /-- an infinity -/
  | infinite (negative : Bool)
  /-- a finite number, `quanta` times `2⁻¹⁴⁹` -/
  | finite (negative : Bool) (quanta : Nat)
  deriving DecidableEq, Repr, Inhabited

namespace Binary32

/-- The number of quanta in one. -/
def quantaPerUnit : Nat := Nat.pow 2 149

/-- The first count of quanta too large for a finite number. -/
def quantaBound : Nat := Nat.pow 2 277

/-- The count of quanta nearest to `num / den` among those of at most 24 significant bits. -/
def roundQuanta (num den : Nat) : Nat :=
  roundToBits 24 num den

/-- The number nearest to `num / den`, infinite if that lies beyond the largest finite one. -/
def ofRatio (negative : Bool) (num den : Nat) : Binary32 :=
  let quanta := roundQuanta (num * quantaPerUnit) den
  if quanta < quantaBound then .finite negative quanta else .infinite negative

/-- The number nearest to a whole number. -/
def ofInt (n : Int) : Binary32 :=
  ofRatio (n < 0) n.natAbs 1

instance (n : Nat) : OfNat Binary32 n := ⟨ofInt n⟩

instance : Neg Binary32 where
  neg
    | .nan => .nan
    | .infinite negative => .infinite !negative
    | .finite negative quanta => .finite (!negative) quanta

end Binary32

end ScriptGraph
