/-!
# Rounding to significant bits

A binary floating-point number is a whole multiple of a power of two with a bounded number of
significant bits. Rounding to such a number is a division of natural numbers with a remainder, so
it is exact whatever the size of the operands.
-/

namespace ScriptGraph

/-- The quotient `a / b` rounded to the nearest whole number, a half to the even neighbour. -/
def divNearestEven (a b : Nat) : Nat :=
  let q := a / b
  let r := a % b
  if 2 * r < b then q
  else if b < 2 * r then q + 1
  else if q % 2 = 0 then q
  else q + 1

/-- Rounding goes up by one at most. -/
theorem divNearestEven_le (a b : Nat) : divNearestEven a b ≤ a / b + 1 := by
  simp only [divNearestEven]
  split
  · omega
  · split
    · omega
    · split <;> omega

/-- The whole number nearest to `num / den` that has at most `bits` significant bits, a half to the
even neighbour. Numbers of fewer bits all have such a form, so among them the spacing is one. -/
def roundToBits (bits num den : Nat) : Nat :=
  let spacing := Nat.pow 2 (Nat.log2 (num / den) + 1 - bits)
  divNearestEven num (den * spacing) * spacing

end ScriptGraph
