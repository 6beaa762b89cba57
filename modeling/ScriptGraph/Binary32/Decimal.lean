import ScriptGraph.Binary32.Basic

/-!
# Decimal text of floating-point numbers

Reading takes an optional sign, digits with an optional point and an optional exponent, or one of
the words for infinity and not-a-number, and rounds the decimal once, to the nearest number.

Writing goes the other way by looking for the fewest digits that read back:

* `shortest` tries one digit, then two, and so on, and on each grid only the two neighbours of the
  value; whether a neighbour reads back is decided by the reader itself;
* the exact expansion, which always reads back, is the last resort;
* `text` writes the digits in full, without an exponent; `jsonText?` writes a point in every number
  and an exponent where the plain form would be long.
-/

namespace ScriptGraph

/-- The decimal `digits * 10 ^ exponent`. -/
structure Decimal where
  /-- the digits, as one whole number -/
  digits : Nat
  /-- the power of ten they count -/
  exponent : Int
  deriving DecidableEq, Repr

namespace Decimal

/-- The digits of a whole number, the most significant first. -/
def digitChars (n : Nat) : List Char :=
  Nat.toDigits 10 n

/-- The whole number that a list of decimal digits writes. -/
def ofDigitChars (cs : List Char) : Nat :=
  cs.foldl (fun n c => 10 * n + (c.toNat - '0'.toNat)) 0

/-- The power of ten just above a decimal: it is less than `10 ^ order`, and if it is not zero, at
least a tenth of that. -/
def order (d : Decimal) : Int :=
  d.exponent + (digitChars d.digits).length

/-! ## Reading -/

/-- Splits off a sign; without one the number is not negative. -/
def splitSign : List Char → Bool × List Char
  | '-' :: rest => (true, rest)
  | '+' :: rest => (false, rest)
  | rest => (false, rest)

/-- Reads the part behind the digits: nothing, or an exponent mark, an optional sign and at least
one digit. -/
def readExponent? : List Char → Option Int
  | [] => some 0
  | c :: rest =>
    let (negative, ds) := splitSign rest
    if (c = 'e' || c = 'E') && !ds.isEmpty && ds.all Char.isDigit then
      some (if negative then -(ofDigitChars ds : Int) else ofDigitChars ds)
    else none

/-- Reads digits with an optional point and an optional exponent. At least one digit stands before
or behind the point. -/
def read? (cs : List Char) : Option Decimal :=
  let whole := cs.takeWhile Char.isDigit
  let (fraction, rest) :=
    match cs.dropWhile Char.isDigit with
    | '.' :: rest => (rest.takeWhile Char.isDigit, rest.dropWhile Char.isDigit)
    | rest => ([], rest)
  if whole.isEmpty && fraction.isEmpty then none
  else
    (readExponent? rest).map fun e =>
      { digits := ofDigitChars (whole ++ fraction), exponent := e - fraction.length }

/-! ## Writing -/

/-- The digits in positional form: zeros fill the places between digits and point, and a point is
written only if digits stand behind it. -/
def positional (d : Decimal) : List Char :=
  let ds := digitChars d.digits
  if 0 ≤ d.exponent then ds ++ List.replicate d.exponent.toNat '0'
  else
    let places := (-d.exponent).toNat
    if places < ds.length then ds.take (ds.length - places) ++ '.' :: ds.drop (ds.length - places)
    else '0' :: '.' :: List.replicate (places - ds.length) '0' ++ ds

/-- The digits with a point behind the first of them, if there are more, and the power of ten. -/
def scientific (d : Decimal) : List Char :=
  let power := (toString (d.order - 1)).toList
  match digitChars d.digits with
  | [] => []
  | [c] => c :: 'e' :: power
  | c :: cs => c :: '.' :: cs ++ 'e' :: power

end Decimal

namespace Binary32

/-! ## Reading -/

/-- The number nearest to a decimal. Outside the range of orders that is computed, the result is
infinite or zero, whatever the digits: the largest finite number is below `10³⁹`, and half of the
smallest positive one is above `10⁻⁴⁶`. -/
def ofDecimal (negative : Bool) (d : Decimal) : Binary32 :=
  if d.digits = 0 then .finite negative 0
  else if 40 ≤ d.order then .infinite negative
  else if d.order ≤ -46 then .finite negative 0
  else if 0 ≤ d.exponent then ofRatio negative (d.digits * Nat.pow 10 d.exponent.toNat) 1
  else ofRatio negative d.digits (Nat.pow 10 (-d.exponent).toNat)

/-- The words for numbers that have no digits, in any mixture of upper and lower case. -/
def ofWord? (negative : Bool) (cs : List Char) : Option Binary32 :=
  let word := String.ofList (cs.map Char.toLower)
  if word = "inf" || word = "infinity" then some (.infinite negative)
  else if word = "nan" then some .nan
  else none

/-- Reads a number from characters, all of which belong to it. -/
def ofChars? (cs : List Char) : Option Binary32 :=
  let (negative, body) := Decimal.splitSign cs
  match Decimal.read? body with
  | some d => some (ofDecimal negative d)
  | none => ofWord? negative body

/-- Reads a number from a text, all of which belongs to it. -/
def ofText? (text : String) : Option Binary32 :=
  ofChars? text.toList

/-! ## Writing -/

/-- The value of `quanta` measured in `10 ^ exponent`, as a numerator and a denominator. -/
def scaled (quanta : Nat) (exponent : Int) : Nat × Nat :=
  if 0 ≤ exponent then (quanta, quantaPerUnit * Nat.pow 10 exponent.toNat)
  else (quanta * Nat.pow 10 (-exponent).toNat, quantaPerUnit)

/-- The power of ten just above the value of `quanta`, as in `Decimal.order`. -/
def orderOfQuanta (quanta : Nat) : Int :=
  if quantaPerUnit ≤ quanta then (Decimal.digitChars (quanta / quantaPerUnit)).length
  else
    match (List.range 45).find? fun k => quantaPerUnit ≤ quanta * Nat.pow 10 (k + 1) with
    | some k => -(k : Int)
    | none => -45

/-- Which of two equally near decimals is written. -/
inductive Tie : Type where
  /-- the one of larger magnitude -/
  | up
  /-- the one whose last digit is even -/
  | even
  deriving DecidableEq, Repr

/-- Is the lower of two neighbours to be written, of which `digits` are the digits and the value lies
`rest / den` above it, with the other one at a distance of one? -/
def Tie.prefersLower (tie : Tie) (digits rest den : Nat) : Bool :=
  2 * rest < den || (2 * rest == den && tie == .even && digits % 2 == 0)

/-- The decimal with `digits` significant digits that reads back as `quanta` and lies nearest to
it; `none` if no such decimal reads back. The upper neighbour can be the next power of ten, which is
written with a single digit. -/
def withDigits? (tie : Tie) (quanta digits : Nat) : Option Decimal :=
  let exponent := orderOfQuanta quanta - digits
  let (num, den) := scaled quanta exponent
  let lower : Decimal := ⟨num / den, exponent⟩
  let upper : Decimal :=
    if num / den + 1 = Nat.pow 10 digits then ⟨1, exponent + digits⟩ else ⟨num / den + 1, exponent⟩
  let readsBack (d : Decimal) : Bool := ofDecimal false d == .finite false quanta
  if readsBack lower && (tie.prefersLower (num / den) (num % den) den || !readsBack upper) then
    some lower
  else if readsBack upper then some upper
  else none

/-- The decimal with the fewest digits that reads back as `quanta`. Nine digits suffice for every
number of 24 significant bits; the exact value stands behind them. -/
def shortest (tie : Tie) (quanta : Nat) : Decimal :=
  match (List.range 9).findSome? fun n => withDigits? tie quanta (n + 1) with
  | some d => d
  | none => ⟨quanta * Nat.pow 5 149, -149⟩

/-- Writes a minus sign before a text if asked to. -/
def signed (negative : Bool) (cs : List Char) : String :=
  String.ofList (if negative then '-' :: cs else cs)

/-- The text of a number: the fewest digits that read back, in positional form. Of two equally near
decimals the larger one is written. -/
def text : Binary32 → String
  | .nan => "NaN"
  | .infinite negative => signed negative "inf".toList
  | .finite negative 0 => signed negative ['0']
  | .finite negative quanta => signed negative (shortest .up quanta).positional

/-- The text of a finite number in a JSON document: positional with a point from `10⁻⁵` up to
`10¹³`, with an exponent elsewhere. Of two equally near decimals the one with an even last digit is
written. Other numbers have no such text. -/
def jsonText? : Binary32 → Option String
  | .nan => none
  | .infinite _ => none
  | .finite negative 0 => some (signed negative "0.0".toList)
  | .finite negative quanta =>
    let d := shortest .even quanta
    if -6 < d.order && d.order ≤ 13 then
      some (signed negative (d.positional ++ if 0 ≤ d.exponent then ['.', '0'] else []))
    else some (signed negative d.scientific)

instance : ToString Binary32 := ⟨text⟩

end Binary32

end ScriptGraph
