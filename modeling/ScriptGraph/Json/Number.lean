import ScriptGraph.Rounding
import ScriptGraph.Binary32.Decimal

/-!
# Numbers in JSON

A number in a document is kept as it is written. Two questions are asked of its characters: whether
its value is within the range of floating-point numbers of 64 bits, and whether it is a whole number.

The value of a number is found in three steps, each of which rounds to 53 significant bits, so close
to the limit of the range it can differ from the nearest floating-point number:

* the leading digits, as many as fit a word of 64 bits, are rounded;
* the power of ten that the digits count is rounded;
* the product of both is rounded, or the quotient if the power is negative.
-/

namespace ScriptGraph

namespace Json

namespace Number

/-- The first number too large for a word of 64 bits. -/
def wordBound : Nat := Nat.pow 2 64

/-- The first power of two too large for a floating-point number of 64 bits. -/
def rangeBound : Nat := Nat.pow 2 1024

/-- Appends decimal digits to a number up to the first one that makes it too large for a word, and
yields the digits that are left over. -/
def appendDigits (n : Nat) : List Char → Nat × List Char
  | [] => (n, [])
  | c :: cs =>
    let longer := 10 * n + (c.toNat - '0'.toNat)
    if longer < wordBound then appendDigits longer cs else (n, c :: cs)

/-- The leading digits of a number and the power of ten that they count. Digits of the whole part
that are left over raise the power, and digits of the fraction that were taken lower it. -/
def leading (whole fraction : List Char) (exponent : Int) : Decimal :=
  let (n, wholeRest) := appendDigits 0 whole
  let (digits, fractionRest) := appendDigits n fraction
  { digits := digits,
    exponent := exponent + wholeRest.length - (fraction.length - fractionRest.length : Nat) }

/-- A whole number rounded to 53 significant bits. -/
def round (n : Nat) : Nat :=
  roundToBits 53 n 1

/-- Is the number with these digits before and behind the point and this exponent beyond all
floating-point numbers of 64 bits? A zero never is, and of other numbers those whose leading digits
count more than `10³⁰⁸` always are. -/
def isOutOfRange (whole fraction : List Char) (exponent : Int) : Bool :=
  let d := leading whole fraction exponent
  if d.digits = 0 || d.exponent < 0 then false
  else if 308 < d.exponent then true
  else rangeBound ≤ round (round d.digits * round (Nat.pow 10 d.exponent.toNat))

/-- The whole number that the characters of a number write: digits alone, and a sign unless the
number is zero. -/
def whole? : List Char → Option Int
  | '-' :: ds =>
    if ds.all Char.isDigit && Decimal.ofDigitChars ds ≠ 0 then
      some (-(Decimal.ofDigitChars ds : Int))
    else none
  | ds => if ds.all Char.isDigit then some (Decimal.ofDigitChars ds) else none

end Number

end Json

end ScriptGraph
