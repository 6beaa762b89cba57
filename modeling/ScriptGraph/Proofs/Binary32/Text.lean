import Mathlib.Tactic.Ring
import ScriptGraph.Binary32.Decimal

/-!
# The text of a number determines it

A number is written with the fewest digits that read back, so reading them back is no surprise; but
what is read are characters, in the positional form or with an exponent, and the decimal that they
write need not have the same digits. It has the same value, and equal values are rounded alike.

* `roundToBits_scale`, `Binary32.ofDecimal_scale` — rounding depends on the value only;
* `Binary32.IsProper` — the numbers that there are: those that rounding leaves alone;
* `Binary32.ofDecimal_shortest` — the shortest decimal reads back;
* `Decimal.Numeral`, `Decimal.read?_chars` — the characters of a number, and the decimal that they
  write;
* `Binary32.Writes` — the numeral that a form of a decimal is, for the positional form and for the
  one with an exponent;
* `Binary32.ofText?_text`, `Binary32.exists_jsonText?` — every text of a number reads back.
-/

namespace ScriptGraph

/-! ## Rounding depends on the value -/

theorem divNearestEven_scale (a b : Nat) {k : Nat} (hk : 0 < k) :
    divNearestEven (a * k) (b * k) = divNearestEven a b := by
  have hq : a * k / (b * k) = a / b := Nat.mul_div_mul_right a b hk
  have hr : a * k % (b * k) = a % b * k := Nat.mul_mod_mul_right k a b
  have hlt : ∀ {m n : Nat}, m * k < n * k ↔ m < n := Nat.mul_lt_mul_right hk
  simp only [divNearestEven, hq, hr, ← Nat.mul_assoc, hlt]

/-- A fraction can be scaled before it is rounded. -/
theorem roundToBits_scale (bits num den : Nat) {k : Nat} (hk : 0 < k) :
    roundToBits bits (num * k) (den * k) = roundToBits bits num den := by
  have hq : num * k / (den * k) = num / den := Nat.mul_div_mul_right num den hk
  simp only [roundToBits, hq]
  rw [Nat.mul_right_comm, divNearestEven_scale _ _ hk]

namespace Decimal

/-! ## Digits -/

theorem ofDigitChars_eq (cs : List Char) : ofDigitChars cs = Nat.ofDigitChars 10 cs 0 := by
  rw [ofDigitChars, Nat.ofDigitChars_eq_foldl]

theorem ofDigitChars_digitChars (n : Nat) : ofDigitChars (digitChars n) = n := by
  rw [ofDigitChars_eq, digitChars, Nat.ofDigitChars_ten_toDigits]

theorem isDigit_digitChars (n : Nat) : ∀ c ∈ digitChars n, c.isDigit = true :=
  fun _ hc => Nat.isDigit_of_mem_toDigits (by decide) (by decide) hc

theorem isDigit_replicate_zero (n : Nat) : ∀ c ∈ List.replicate n '0', c.isDigit = true := by
  intro c hc
  rw [List.eq_of_mem_replicate hc]
  rfl

theorem digitChars_ne_nil (n : Nat) : digitChars n ≠ [] :=
  Nat.toDigits_ne_nil

/-- Zeros behind some digits. -/
theorem ofDigitChars_append_zeros (cs : List Char) (k : Nat) :
    ofDigitChars (cs ++ List.replicate k '0') = ofDigitChars cs * 10 ^ k := by
  simp only [ofDigitChars_eq, Nat.ofDigitChars_append, Nat.ofDigitChars_replicate_zero]
  exact Nat.mul_comm _ _

/-- Zeros in front of some digits. -/
theorem ofDigitChars_zeros_append (cs : List Char) (k : Nat) :
    ofDigitChars (List.replicate k '0' ++ cs) = ofDigitChars cs := by
  simp only [ofDigitChars_eq, Nat.ofDigitChars_append, Nat.ofDigitChars_replicate_zero,
    Nat.mul_zero]

theorem length_digitChars_le_iff {n k : Nat} (hk : 0 < k) :
    (digitChars n).length ≤ k ↔ n < 10 ^ k :=
  Nat.length_toDigits_le_iff (by decide) hk

theorem digitChars_scale {n : Nat} (hn : n ≠ 0) (k : Nat) :
    digitChars (n * 10 ^ k) = digitChars n ++ List.replicate k '0' := by
  induction k with
  | zero => simp
  | succ k ih =>
    have hpos : 0 < n * 10 ^ k := Nat.mul_pos (Nat.pos_of_ne_zero hn) (Nat.pow_pos (by decide))
    have h := Nat.toDigits_append_toDigits (b := 10) (d := 0) (by decide) hpos (by decide)
    rw [Nat.add_zero, Nat.toDigits_zero] at h
    have hmul : n * 10 ^ (k + 1) = 10 * (n * 10 ^ k) := by ring
    rw [hmul, digitChars, ← h, ← digitChars, ih, List.append_assoc, List.replicate_succ']

/-- Digits of a number that is not zero do not start with a zero. -/
theorem head?_digitChars {n : Nat} (hn : n ≠ 0) : (digitChars n).head? ≠ some '0' := by
  induction n using Nat.strongRecOn with
  | _ n ih =>
    rw [digitChars, Nat.toDigits_eq_if (by decide)]
    split
    · next h =>
      have hall : ∀ m : Fin 10, (m : Nat) ≠ 0 → m.val.digitChar ≠ '0' := by decide
      simpa using hall ⟨n, h⟩ hn
    · next h =>
      rw [List.head?_append, Option.or_of_isSome (List.isSome_head?.mpr Nat.toDigits_ne_nil)]
      exact ih (n / 10) (by omega) (by omega)

/-! ## Numerals -/

/-- The characters of a number without a sign: digits, of which the first is a zero only if it is
the only one before the point, and perhaps an exponent. -/
structure Numeral where
  /-- the digits before the point -/
  whole : List Char
  /-- the digits behind the point; without any there is no point -/
  fraction : List Char
  /-- the exponent, if one is written -/
  exponent : Option Int
  whole_digits : ∀ c ∈ whole, c.isDigit = true
  whole_ne_nil : whole ≠ []
  leading_zero : whole = ['0'] ∨ whole.head? ≠ some '0'
  fraction_digits : ∀ c ∈ fraction, c.isDigit = true

namespace Numeral

/-- The digits behind the point, with the point. -/
def fractionChars (n : Numeral) : List Char :=
  if n.fraction = [] then [] else '.' :: n.fraction

/-- The exponent with its mark. -/
def exponentChars (n : Numeral) : List Char :=
  match n.exponent with
  | none => []
  | some e => 'e' :: (toString e).toList

/-- All characters. -/
def chars (n : Numeral) : List Char :=
  n.whole ++ (n.fractionChars ++ n.exponentChars)

/-- The power of ten that the exponent states. -/
def power (n : Numeral) : Int :=
  n.exponent.getD 0

/-- The decimal that the characters write. -/
def value (n : Numeral) : Decimal where
  digits := ofDigitChars (n.whole ++ n.fraction)
  exponent := n.power - n.fraction.length

end Numeral

theorem takeWhile_digits {cs rest : List Char} (hcs : ∀ c ∈ cs, c.isDigit = true)
    (hrest : ∀ c ∈ rest.head?, c.isDigit = false) :
    (cs ++ rest).takeWhile Char.isDigit = cs := by
  rw [List.takeWhile_append_of_pos hcs, List.append_right_eq_self]
  cases rest with
  | nil => rfl
  | cons c rest => exact List.takeWhile_cons_of_neg (by simp [hrest c rfl])

theorem dropWhile_digits {cs rest : List Char} (hcs : ∀ c ∈ cs, c.isDigit = true)
    (hrest : ∀ c ∈ rest.head?, c.isDigit = false) :
    (cs ++ rest).dropWhile Char.isDigit = rest := by
  rw [List.dropWhile_append_of_pos hcs]
  cases rest with
  | nil => rfl
  | cons c rest => exact List.dropWhile_cons_of_neg (by simp [hrest c rfl])

theorem splitSign_digits {cs : List Char} (hcs : ∀ c ∈ cs.head?, c.isDigit = true) :
    splitSign cs = (false, cs) := by
  match cs with
  | [] => rfl
  | c :: cs =>
    have hc : c.isDigit = true := hcs c rfl
    rw [splitSign]
    · rintro _ ⟨⟩
      cases hc
    · rintro _ ⟨⟩
      cases hc

/-- A whole number is written with its digits, and a sign if it is negative. -/
theorem toList_toString (n : Int) :
    (toString n).toList = (if n < 0 then ['-'] else []) ++ digitChars n.natAbs := by
  cases n with
  | ofNat n => simp [toString, Int.repr, digitChars, Nat.repr_eq_ofList_toDigits]
  | negSucc n =>
    simp [toString, Int.repr, digitChars, Nat.repr_eq_ofList_toDigits, Int.negSucc_lt_zero]

theorem readExponent?_toString (e : Int) : readExponent? ('e' :: (toString e).toList) = some e := by
  have hall : (digitChars e.natAbs).all Char.isDigit = true :=
    List.all_eq_true.mpr (isDigit_digitChars _)
  have hne : (digitChars e.natAbs).isEmpty = false := by
    simpa using digitChars_ne_nil e.natAbs
  have hsplit : splitSign (toString e).toList = (decide (e < 0), digitChars e.natAbs) := by
    rw [toList_toString]
    by_cases he : e < 0
    · simp [he, splitSign]
    · rw [if_neg he, List.nil_append, splitSign_digits, decide_eq_false he]
      exact fun c hc => isDigit_digitChars _ c (List.mem_of_mem_head? hc)
  rw [readExponent?, hsplit]
  simp only [hall, hne, ofDigitChars_digitChars, decide_true, Bool.true_or, Bool.not_false,
    Bool.and_true, if_true, decide_eq_true_eq]
  split
  · exact congrArg some (by omega)
  · exact congrArg some (by omega)

/-- A numeral starts with a digit. -/
theorem Numeral.exists_digit_cons (n : Numeral) : ∃ c cs, n.chars = c :: cs ∧ c.isDigit = true := by
  obtain ⟨c, cs, hw⟩ := List.exists_cons_of_ne_nil n.whole_ne_nil
  exact ⟨c, _, by rw [chars, hw, List.cons_append], n.whole_digits c (hw ▸ List.mem_cons_self)⟩

theorem Numeral.readExponent?_exponentChars (n : Numeral) :
    readExponent? n.exponentChars = some n.power := by
  rw [exponentChars, power]
  cases n.exponent with
  | none => rfl
  | some e => exact readExponent?_toString e

theorem Numeral.head_exponentChars (n : Numeral) : ∀ c ∈ n.exponentChars.head?, c = 'e' := by
  rw [exponentChars]
  cases n.exponent with
  | none => simp
  | some e => simp

/-- A numeral reads as the decimal that it writes. -/
theorem read?_chars (n : Numeral) : read? n.chars = some n.value := by
  have hexp := n.readExponent?_exponentChars
  have hexpHead := n.head_exponentChars
  have hexpDigit : ∀ c ∈ n.exponentChars.head?, c.isDigit = false := fun c hc => by
    rw [hexpHead c hc]
    rfl
  have hne : n.whole.isEmpty = false := by simpa using n.whole_ne_nil
  rw [read?, Numeral.chars, Numeral.fractionChars]
  by_cases hf : n.fraction = []
  · rw [if_pos hf, List.nil_append, takeWhile_digits n.whole_digits hexpDigit,
      dropWhile_digits n.whole_digits hexpDigit]
    split
    next fraction rest hsplit =>
    split at hsplit
    · next h => cases hexpHead '.' (by rw [h]; rfl)
    · cases hsplit
      simp only [hne, Bool.false_and, Bool.false_eq_true, if_false, hexp, Option.map_some,
        Numeral.value, hf]
  · rw [if_neg hf, takeWhile_digits n.whole_digits (by simp [Char.isDigit]),
      dropWhile_digits n.whole_digits (by simp [Char.isDigit])]
    simp only [List.cons_append, takeWhile_digits n.fraction_digits hexpDigit,
      dropWhile_digits n.fraction_digits hexpDigit, hne, Bool.false_and, Bool.false_eq_true,
      if_false, hexp, Option.map_some]
    rfl

end Decimal

namespace Binary32

open Decimal

/-- A fraction can be scaled before the nearest number is taken. -/
theorem ofRatio_scale (negative : Bool) (num den : Nat) {k : Nat} (hk : 0 < k) :
    ofRatio negative (num * k) (den * k) = ofRatio negative num den := by
  have h : roundQuanta (num * k * quantaPerUnit) (den * k) =
      roundQuanta (num * quantaPerUnit) den := by
    rw [roundQuanta, Nat.mul_right_comm, roundToBits_scale _ _ _ hk, roundQuanta]
  simp only [ofRatio, h]

/-- A decimal can be written with more digits and a lower exponent. -/
theorem ofDecimal_scale (negative : Bool) (n k : Nat) (e : Int) :
    ofDecimal negative ⟨n * 10 ^ k, e⟩ = ofDecimal negative ⟨n, e + k⟩ := by
  have hten : ∀ j : Nat, 0 < 10 ^ j := fun j => Nat.pow_pos (by decide)
  by_cases hn : n = 0
  · simp [ofDecimal, hn]
  have hn' : n * 10 ^ k ≠ 0 := Nat.mul_ne_zero hn (Nat.ne_of_gt (hten k))
  have horder : Decimal.order ⟨n * 10 ^ k, e⟩ = Decimal.order ⟨n, e + k⟩ := by
    simp only [Decimal.order, digitChars_scale hn, List.length_append, List.length_replicate]
    omega
  simp only [ofDecimal, hn, hn', horder, if_false, Nat.pow_eq]
  -- the two exponents have the same sign, or only the higher one is not negative
  rcases Int.lt_or_le e 0 with he | he
  · rcases Int.lt_or_le (e + k) 0 with hek | hek
    · have hden : 10 ^ (-e).toNat = 10 ^ (-(e + k)).toNat * 10 ^ k := by
        rw [← Nat.pow_add]
        congr 1
        omega
      rw [if_neg (Int.not_le.mpr he), if_neg (Int.not_le.mpr hek), hden,
        ofRatio_scale _ _ _ (hten k)]
    · have hnum : n * 10 ^ k = n * 10 ^ (e + k).toNat * 10 ^ (-e).toNat := by
        rw [Nat.mul_assoc, ← Nat.pow_add]
        congr 2
        omega
      have hscale := ofRatio_scale negative (n * 10 ^ (e + k).toNat) 1 (hten (-e).toNat)
      rw [Nat.one_mul] at hscale
      rw [if_neg (Int.not_le.mpr he), if_pos hek, hnum, hscale]
  · have hnum : n * 10 ^ k * 10 ^ e.toNat = n * 10 ^ (e + k).toNat := by
      rw [Nat.mul_assoc, ← Nat.pow_add]
      congr 2
      omega
    have hek : 0 ≤ e + k := by omega
    rw [if_pos he, if_pos hek, hnum]

/-! ## Shortest decimals -/

/-- Is a number one of those that there are? The nearest one to its value is the number itself. -/
def IsProper : Binary32 → Prop
  | .finite negative quanta => ofRatio negative quanta quantaPerUnit = .finite negative quanta
  | _ => True

instance (x : Binary32) : Decidable x.IsProper :=
  match x with
  | .nan => .isTrue trivial
  | .infinite _ => .isTrue trivial
  | .finite negative quanta =>
    inferInstanceAs (Decidable (ofRatio negative quanta quantaPerUnit = .finite negative quanta))

/-- Is a number finite? -/
def IsFinite : Binary32 → Prop
  | .finite _ _ => True
  | _ => False

instance (x : Binary32) : Decidable x.IsFinite :=
  match x with
  | .nan => .isFalse not_false
  | .infinite _ => .isFalse not_false
  | .finite _ _ => .isTrue trivial

/-- The sign has no part in rounding. -/
theorem ofRatio_sign {num den quanta : Nat} (h : ofRatio false num den = .finite false quanta)
    (negative : Bool) : ofRatio negative num den = .finite negative quanta := by
  simp only [ofRatio] at h ⊢
  split at h
  · cases h
    rw [if_pos ‹_›]
  · cases h

theorem ofDecimal_sign {d : Decimal} {quanta : Nat} (h : ofDecimal false d = .finite false quanta)
    (negative : Bool) : ofDecimal negative d = .finite negative quanta := by
  unfold ofDecimal at h ⊢
  split at h
  · cases h
    rw [if_pos ‹_›]
  · next hd =>
    rw [if_neg hd]
    split at h
    · cases h
    · next ho =>
      rw [if_neg ho]
      split at h
      · cases h
        rw [if_pos ‹_›]
      · next ho' =>
        rw [if_neg ho']
        split at h
        · next he =>
          rw [if_pos he]
          exact ofRatio_sign h negative
        · next he =>
          rw [if_neg he]
          exact ofRatio_sign h negative

/-- Of two candidates, only one that passes a test is chosen. -/
theorem passes_of_choice {α : Type} {f : α → Bool} {lower upper a : α} {prefers : Bool}
    (h : (if f lower && prefers then some lower else if f upper then some upper else none) =
      some a) : f a = true := by
  split at h
  · next hl =>
    cases h
    exact (Bool.and_eq_true_iff.mp hl).1
  · split at h
    · next hu =>
      cases h
      exact hu
    · cases h

/-- What is found with some digits reads back. -/
theorem ofDecimal_withDigits? {tie : Tie} {quanta digits : Nat} {d : Decimal}
    (h : withDigits? tie quanta digits = some d) : ofDecimal false d = .finite false quanta := by
  let f (d : Decimal) : Bool := ofDecimal false d == .finite false quanta
  exact beq_iff_eq.mp (passes_of_choice (f := f) h)

theorem IsProper.lt {negative : Bool} {quanta : Nat}
    (h : (Binary32.finite negative quanta).IsProper) : quanta < quantaBound := by
  simp only [IsProper, ofRatio] at h
  split at h
  · next hlt => exact (Binary32.finite.inj h).2 ▸ hlt
  · cases h

/-- The exact value of a number has an order that is computed. -/
theorem order_exact {quanta : Nat} (h : quanta < quantaBound) (hq : quanta ≠ 0) :
    Decimal.order ⟨quanta * 5 ^ 149, -149⟩ < 40 ∧ -46 < Decimal.order ⟨quanta * 5 ^ 149, -149⟩ := by
  have harith : ∀ l : Nat, l ≤ 188 → ¬l ≤ 103 → (-149 : Int) + l < 40 ∧ -46 < (-149 : Int) + l := by
    omega
  have hbound : quantaBound = 2 ^ 128 * quantaPerUnit := by decide +kernel
  have hhigh : quanta * 5 ^ 149 < 10 ^ (39 + 149) :=
    calc quanta * 5 ^ 149 < quantaBound * 5 ^ 149 :=
          Nat.mul_lt_mul_of_pos_right h (Nat.pow_pos (by decide))
      _ = 2 ^ 128 * 10 ^ 149 := by
          rw [hbound, Nat.mul_assoc, quantaPerUnit, Nat.pow_eq, ← Nat.mul_pow]
      _ ≤ 10 ^ 39 * 10 ^ 149 := Nat.mul_le_mul_right _ (by decide)
      _ = 10 ^ (39 + 149) := (Nat.pow_add 10 39 149).symm
  have hlow : 10 ^ 103 ≤ quanta * 5 ^ 149 :=
    Nat.le_trans (by decide +kernel) (Nat.le_mul_of_pos_left _ (Nat.pos_of_ne_zero hq))
  exact harith _ ((length_digitChars_le_iff (by decide)).mpr hhigh)
    (mt (length_digitChars_le_iff (by decide)).mp (Nat.not_lt.mpr hlow))

/-- The exact value of a number reads back. -/
theorem ofDecimal_exact {quanta : Nat} (h : (Binary32.finite false quanta).IsProper)
    (hq : quanta ≠ 0) :
    ofDecimal false ⟨quanta * Nat.pow 5 149, -149⟩ = .finite false quanta := by
  have hfive : 0 < 5 ^ 149 := Nat.pow_pos (by decide)
  have hpow : ∀ n : Nat, 10 ^ n = 2 ^ n * 5 ^ n := fun n => by rw [← Nat.mul_pow]
  obtain ⟨hhigh, hlow⟩ := order_exact h.lt hq
  have hratio : ofRatio false (quanta * 5 ^ 149) (10 ^ 149) = .finite false quanta := by
    rw [hpow, ofRatio_scale _ _ _ hfive]
    exact h
  have hne : quanta * 5 ^ 149 ≠ 0 := Nat.mul_ne_zero hq (Nat.ne_of_gt hfive)
  simp only [ofDecimal, Nat.pow_eq]
  rw [if_neg hne, if_neg (Int.not_le.mpr hhigh), if_neg (Int.not_le.mpr hlow), if_neg (by decide)]
  exact hratio

/-- **The shortest decimal reads back.** -/
theorem ofDecimal_shortest (tie : Tie) {quanta : Nat} (h : (Binary32.finite false quanta).IsProper)
    (hq : quanta ≠ 0) : ofDecimal false (shortest tie quanta) = .finite false quanta := by
  rw [shortest]
  split
  · next d hd =>
    obtain ⟨n, -, hn⟩ := List.exists_of_findSome?_eq_some hd
    exact ofDecimal_withDigits? hn
  · exact ofDecimal_exact h hq

/-! ## Texts -/

/-- Some characters are those of a numeral, whose value is that of a decimal and whose first digit
counts no more than the decimal's. -/
structure Writes (cs : List Char) (d : Decimal) (n : Numeral) : Prop where
  chars_eq : n.chars = cs
  value_eq : ∀ negative, ofDecimal negative n.value = ofDecimal negative d
  order_le : n.power + n.whole.length ≤ max 1 d.order

/-- A whole number with zeros behind it, and with more of them behind a point. -/
theorem exists_writes_whole {digits : Nat} (hd : digits ≠ 0) (e z : Nat) :
    ∃ n, Writes (digitChars digits ++ List.replicate e '0' ++
      (if z = 0 then [] else '.' :: List.replicate z '0')) ⟨digits, e⟩ n := by
  let n : Numeral := {
    whole := digitChars digits ++ List.replicate e '0'
    fraction := List.replicate z '0'
    exponent := none
    whole_digits := List.forall_mem_append.mpr ⟨isDigit_digitChars digits, isDigit_replicate_zero e⟩
    whole_ne_nil := List.append_ne_nil_of_left_ne_nil (digitChars_ne_nil digits) _
    leading_zero := .inr (by
      rw [List.head?_append, Option.or_of_isSome (List.isSome_head?.mpr (digitChars_ne_nil digits))]
      exact head?_digitChars hd)
    fraction_digits := isDigit_replicate_zero z }
  refine ⟨n, ?_, fun negative => ?_, ?_⟩
  · simp [n, Numeral.chars, Numeral.fractionChars, Numeral.exponentChars]
  · have hvalue : n.value = ⟨digits * 10 ^ (e + z), 0 - z⟩ := by
      simp [n, Numeral.value, Numeral.power, List.append_assoc, ofDigitChars_append_zeros,
        ofDigitChars_digitChars]
    rw [hvalue, ofDecimal_scale]
    congr 2
    omega
  · simp only [n, Numeral.power, Decimal.order, List.length_append, List.length_replicate,
      Option.getD_none]
    omega

/-- Digits with a point between them. -/
theorem exists_writes_split {digits places : Nat} (hd : digits ≠ 0) (hpos : 0 < places)
    (hlt : places < (digitChars digits).length) :
    ∃ n, Writes ((digitChars digits).take ((digitChars digits).length - places) ++
      '.' :: (digitChars digits).drop ((digitChars digits).length - places))
      ⟨digits, -places⟩ n := by
  have hdigits := isDigit_digitChars digits
  have hvalue := ofDigitChars_digitChars digits
  have hhead := head?_digitChars hd
  generalize hds : digitChars digits = ds at *
  obtain ⟨k, hk⟩ : ∃ k, ds.length - places = k + 1 := ⟨ds.length - places - 1, by omega⟩
  have hdrop : ds.drop (k + 1) ≠ [] := by
    rw [Ne, List.drop_eq_nil_iff]
    omega
  let n : Numeral := {
    whole := ds.take (k + 1)
    fraction := ds.drop (k + 1)
    exponent := none
    whole_digits := fun c hc => hdigits c (List.mem_of_mem_take hc)
    whole_ne_nil := by
      rw [Ne, List.take_eq_nil_iff]
      rintro (h | rfl)
      · cases h
      · cases hlt
    leading_zero := .inr (by
      rw [List.head?_take, if_neg (Nat.succ_ne_zero k)]
      exact hhead)
    fraction_digits := fun c hc => hdigits c (List.mem_of_mem_drop hc) }
  rw [hk]
  refine ⟨n, ?_, fun negative => ?_, ?_⟩
  · simp [n, Numeral.chars, Numeral.fractionChars, Numeral.exponentChars, hdrop]
  · have hvalue : n.value = ⟨digits, -places⟩ := by
      simp only [n, Numeral.value, Numeral.power, List.take_append_drop, hvalue, List.length_drop,
        Option.getD_none, Decimal.mk.injEq, true_and]
      omega
    rw [hvalue]
  · simp only [n, Numeral.power, Decimal.order, hds, List.length_take, Option.getD_none]
    omega

/-- Digits behind a zero and a point. -/
theorem exists_writes_behind {digits places : Nat}
    (hle : (digitChars digits).length ≤ places) :
    ∃ n, Writes ('0' :: '.' :: List.replicate (places - (digitChars digits).length) '0' ++
      digitChars digits) ⟨digits, -places⟩ n := by
  let n : Numeral := {
    whole := ['0']
    fraction := List.replicate (places - (digitChars digits).length) '0' ++ digitChars digits
    exponent := none
    whole_digits := isDigit_replicate_zero 1
    whole_ne_nil := List.cons_ne_nil _ _
    leading_zero := .inl rfl
    fraction_digits :=
      List.forall_mem_append.mpr ⟨isDigit_replicate_zero _, isDigit_digitChars digits⟩ }
  refine ⟨n, ?_, fun negative => ?_, ?_⟩
  · simp [n, Numeral.chars, Numeral.fractionChars, Numeral.exponentChars, digitChars_ne_nil]
  · have hvalue : n.value = ⟨digits, -places⟩ := by
      have hzeros := ofDigitChars_zeros_append (digitChars digits)
        (places - (digitChars digits).length + 1)
      rw [List.replicate_succ, List.cons_append, ofDigitChars_digitChars] at hzeros
      simp only [n, Numeral.value, Numeral.power, List.singleton_append, hzeros, List.length_append,
        List.length_replicate, Option.getD_none, Decimal.mk.injEq, true_and]
      omega
    rw [hvalue]
  · simp [n, Numeral.power]

/-- The positional form, perhaps with a point and zeros behind it where it has none. -/
theorem exists_writes_positional {d : Decimal} (hd : d.digits ≠ 0) (z : Nat) :
    ∃ n, Writes (d.positional ++
      (if 0 ≤ d.exponent then if z = 0 then [] else '.' :: List.replicate z '0' else [])) d n := by
  obtain ⟨digits, exponent⟩ := d
  simp only [positional]
  by_cases he : 0 ≤ exponent
  · obtain ⟨e, rfl⟩ := Int.eq_ofNat_of_zero_le he
    simp only [if_pos he, Int.toNat_natCast]
    exact exists_writes_whole hd e z
  · obtain ⟨places, rfl⟩ : ∃ places : Nat, exponent = -places := ⟨(-exponent).toNat, by omega⟩
    simp only [if_neg he, List.append_nil, Int.neg_neg, Int.toNat_natCast]
    split
    · next hlt => exact exists_writes_split hd (by omega) hlt
    · next hge => exact exists_writes_behind (Nat.not_lt.mp hge)

/-- The first digit, the others behind a point, and an exponent. -/
theorem exists_writes_scientific {d : Decimal} (hd : d.digits ≠ 0) :
    ∃ n, Writes d.scientific d n := by
  obtain ⟨digits, exponent⟩ := d
  have hdigits := isDigit_digitChars digits
  have hvalue := ofDigitChars_digitChars digits
  have hhead := head?_digitChars hd
  simp only [scientific, Decimal.order]
  generalize hds : digitChars digits = ds at *
  match ds with
  | [] => exact absurd hds (digitChars_ne_nil digits)
  | c :: cs =>
    let n : Numeral := {
      whole := [c]
      fraction := cs
      exponent := some (exponent + (c :: cs).length - 1)
      whole_digits := fun b hb => hdigits b (List.mem_cons.mpr (.inl (List.mem_singleton.mp hb)))
      whole_ne_nil := List.cons_ne_nil c []
      leading_zero := .inr hhead
      fraction_digits := fun b hb => hdigits b (List.mem_cons_of_mem c hb) }
    have hnvalue : n.value = ⟨digits, exponent⟩ := by
      simp only [n, Numeral.value, Numeral.power, List.singleton_append, hvalue, Option.getD_some,
        List.length_cons, Decimal.mk.injEq, true_and]
      omega
    refine ⟨n, ?_, fun negative => by rw [hnvalue], ?_⟩
    · cases cs with
      | nil => rfl
      | cons b cs => rfl
    · simp only [n, Numeral.power, Decimal.order, hds, Option.getD_some, List.length_cons,
        List.length_nil]
      omega

/-- A numeral behind a sign is read as a number of that sign. -/
theorem ofText?_signed (negative : Bool) (n : Numeral) :
    ofText? (signed negative n.chars) = some (ofDecimal negative n.value) := by
  have hsplit : splitSign (if negative then '-' :: n.chars else n.chars) = (negative, n.chars) := by
    cases negative with
    | true => rfl
    | false =>
      obtain ⟨c, cs, hcs, hc⟩ := n.exists_digit_cons
      refine splitSign_digits (hcs ▸ ?_)
      rintro _ ⟨⟩
      exact hc
  rw [ofText?, signed, String.toList_ofList, ofChars?, hsplit]
  simp only [read?_chars]

/-- The numeral of a decimal that reads back is read back. -/
theorem ofText?_signed_of_writes {cs : List Char} {d : Decimal} {n : Numeral} {quanta : Nat}
    (h : Writes cs d n) (hd : ofDecimal false d = .finite false quanta) (negative : Bool) :
    ofText? (signed negative cs) = some (.finite negative quanta) := by
  rw [← h.chars_eq, ofText?_signed, h.value_eq, ofDecimal_sign hd]

theorem digits_ne_zero_of_ofDecimal {d : Decimal} {quanta : Nat} (hq : quanta ≠ 0)
    (h : ofDecimal false d = .finite false quanta) : d.digits ≠ 0 := by
  intro hd
  rw [ofDecimal, if_pos hd] at h
  exact hq (Binary32.finite.inj h).2.symm

theorem order_lt_of_ofDecimal {d : Decimal} {quanta : Nat} (hd : d.digits ≠ 0)
    (h : ofDecimal false d = .finite false quanta) : d.order < 40 := by
  by_contra hge
  rw [ofDecimal, if_neg hd, if_pos (Int.not_lt.mp hge)] at h
  cases h

theorem IsProper.positive {negative : Bool} {quanta : Nat}
    (h : (Binary32.finite negative quanta).IsProper) : (Binary32.finite false quanta).IsProper := by
  simp only [IsProper, ofRatio] at h ⊢
  split at h
  · next hlt =>
    rw [if_pos hlt, (Binary32.finite.inj h).2]
  · cases h

/-- **The text of a number reads back.** -/
theorem ofText?_text {x : Binary32} (h : x.IsProper) : ofText? x.text = some x := by
  match x with
  | .nan => decide +kernel
  | .infinite negative => cases negative <;> decide +kernel
  | .finite negative 0 => cases negative <;> decide +kernel
  | .finite negative (quanta + 1) =>
    have hread := ofDecimal_shortest .up h.positive (Nat.succ_ne_zero quanta)
    obtain ⟨n, hn⟩ := exists_writes_positional
      (digits_ne_zero_of_ofDecimal (Nat.succ_ne_zero quanta) hread) 0
    simp only [if_true, ite_self, List.append_nil] at hn
    exact ofText?_signed_of_writes hn hread negative

/-- **The text of a number in a document** is a numeral behind a sign, of at most forty digits
before its point, and reads back. -/
theorem exists_jsonText? {negative : Bool} {quanta : Nat}
    (h : (Binary32.finite negative quanta).IsProper) :
    ∃ n : Numeral, (Binary32.finite negative quanta).jsonText? = some (signed negative n.chars) ∧
      ofText? (signed negative n.chars) = some (.finite negative quanta) ∧
      n.power + n.whole.length ≤ 40 := by
  cases quanta with
  | zero =>
    let n : Numeral := ⟨['0'], ['0'], none, isDigit_replicate_zero 1, List.cons_ne_nil _ _,
      .inl rfl, isDigit_replicate_zero 1⟩
    refine ⟨n, rfl, ?_, by decide⟩
    cases negative <;> decide +kernel
  | succ quanta =>
    have hread := ofDecimal_shortest .even h.positive (Nat.succ_ne_zero quanta)
    have hd := digits_ne_zero_of_ofDecimal (Nat.succ_ne_zero quanta) hread
    have horder := order_lt_of_ofDecimal hd hread
    have hclose : ∀ {cs n}, Writes cs (shortest .even (quanta + 1)) n →
        (Binary32.finite negative (quanta + 1)).jsonText? = some (signed negative cs) →
        ∃ n : Numeral, (Binary32.finite negative (quanta + 1)).jsonText? =
            some (signed negative n.chars) ∧
          ofText? (signed negative n.chars) = some (.finite negative (quanta + 1)) ∧
          n.power + n.whole.length ≤ 40 := by
      intro cs n hn htext
      refine ⟨n, hn.chars_eq ▸ htext, hn.chars_eq ▸ ofText?_signed_of_writes hn hread negative, ?_⟩
      have := hn.order_le
      omega
    by_cases hplain : (-6 < (shortest .even (quanta + 1)).order &&
        (shortest .even (quanta + 1)).order ≤ 13) = true
    · obtain ⟨n, hn⟩ := exists_writes_positional hd 1
      exact hclose hn (if_pos hplain)
    · obtain ⟨n, hn⟩ := exists_writes_scientific hd
      exact hclose hn (if_neg hplain)

end Binary32

end ScriptGraph
