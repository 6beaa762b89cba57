import ScriptGraph.Proofs.Binary32.Text
import ScriptGraph.Proofs.Token.Spelling

/-!
# Numbers that are read

The number of a literal is rounded, and what is rounded has few enough bits that rounding it again
changes nothing. So it is one of the numbers that there are, and its text determines it. A literal
has no sign, so the text is a bare numeral.

* `roundToBits_idem` — a rounded number is its own nearest one;
* `Binary32.exists_quanta_of_isNumeral` — the number of a literal is one of those that there are,
  and not negative;
* `Binary32.exists_numeral_text` — the text of a number that is not negative is a numeral.
-/

namespace ScriptGraph

/-! ## Rounding twice -/

theorem divNearestEven_mul (a : Nat) {b : Nat} (hb : 0 < b) : divNearestEven (a * b) b = a := by
  simp [divNearestEven, Nat.mul_div_cancel a hb, hb]

/-- A rounded number is a multiple of a power of two by a number of not too many bits, or by the
next power of two. -/
theorem exists_roundToBits (bits num den : Nat) :
    ∃ m s, m ≤ 2 ^ bits ∧ roundToBits bits num den = m * 2 ^ s := by
  refine ⟨_, Nat.log2 (num / den) + 1 - bits, ?_, rfl⟩
  have hlt : num / den < 2 ^ (bits + (Nat.log2 (num / den) + 1 - bits)) :=
    calc num / den < 2 ^ (Nat.log2 (num / den) + 1) := Nat.lt_log2_self
      _ ≤ _ := Nat.pow_le_pow_right (by decide) (by omega)
  have hquotient : num / den / 2 ^ (Nat.log2 (num / den) + 1 - bits) < 2 ^ bits := by
    rw [Nat.div_lt_iff_lt_mul (Nat.pow_pos (by decide)), ← Nat.pow_add]
    exact hlt
  refine Nat.le_trans (divNearestEven_le _ _) ?_
  rw [Nat.pow_eq, ← Nat.div_div_eq_div_mul]
  exact hquotient

/-- A number is its own nearest one if it is a multiple of the spacing where it lies. -/
theorem roundToBits_of_dvd {bits n : Nat} (h : 2 ^ (Nat.log2 n + 1 - bits) ∣ n) :
    roundToBits bits n 1 = n := by
  obtain ⟨m, hm⟩ := h
  have hpos : 0 < 2 ^ (Nat.log2 n + 1 - bits) := Nat.pow_pos (by decide)
  simp only [roundToBits, Nat.div_one, Nat.one_mul, Nat.pow_eq]
  generalize 2 ^ (Nat.log2 n + 1 - bits) = spacing at hm hpos ⊢
  rw [hm, Nat.mul_comm spacing m, divNearestEven_mul m hpos]

theorem spacing_dvd {bits m : Nat} (hbits : 0 < bits) (hm : m ≤ 2 ^ bits) (s : Nat) :
    2 ^ (Nat.log2 (m * 2 ^ s) + 1 - bits) ∣ m * 2 ^ s := by
  rcases Nat.lt_or_eq_of_le hm with hlt | rfl
  · by_cases hzero : m * 2 ^ s = 0
    · rw [hzero]
      exact Nat.dvd_zero _
    · have hlog : Nat.log2 (m * 2 ^ s) < bits + s := by
        rw [Nat.log2_lt hzero, Nat.pow_add]
        exact Nat.mul_lt_mul_of_pos_right hlt (Nat.pow_pos (by decide))
      exact Nat.dvd_trans (Nat.pow_dvd_pow 2 (by omega)) (Nat.dvd_mul_left _ m)
  · -- rounding up has led to the next power of two, where the spacing is twice as large
    rw [← Nat.pow_add, Nat.log2_two_pow]
    exact Nat.pow_dvd_pow 2 (by omega)

/-- **A rounded number is its own nearest one.** -/
theorem roundToBits_idem {bits : Nat} (hbits : 0 < bits) (num den : Nat) :
    roundToBits bits (roundToBits bits num den) 1 = roundToBits bits num den := by
  obtain ⟨m, s, hm, hr⟩ := exists_roundToBits bits num den
  rw [hr]
  exact roundToBits_of_dvd (spacing_dvd hbits hm s)

namespace Binary32

open Decimal

/-! ## Reading -/

theorem roundQuanta_idem (num den : Nat) :
    roundQuanta (roundQuanta num den * quantaPerUnit) quantaPerUnit = roundQuanta num den := by
  have hscale := roundToBits_scale 24 (roundQuanta num den) 1 (k := quantaPerUnit)
    (by decide +kernel)
  rw [Nat.one_mul] at hscale
  exact hscale.trans (roundToBits_idem (by decide) num den)

/-- A number that there is, of a given sign. -/
structure IsRounded (negative : Bool) (value : Binary32) : Prop where
  proper : value.IsProper
  sign : (∃ quanta, value = .finite negative quanta) ∨ value = .infinite negative

theorem isRounded_of_ofRatio {negative : Bool} {num den : Nat} {value : Binary32}
    (h : ofRatio negative num den = value) : value.IsRounded negative := by
  rw [ofRatio] at h
  split at h
  · next hlt =>
    refine ⟨?_, .inl ⟨_, h.symm⟩⟩
    rw [← h, IsProper, ofRatio, roundQuanta_idem]
    exact if_pos hlt
  · subst h
    exact ⟨trivial, .inr rfl⟩

theorem isRounded_of_ofDecimal {negative : Bool} {d : Decimal} {value : Binary32}
    (h : ofDecimal negative d = value) : value.IsRounded negative := by
  have hzero : (Binary32.finite negative 0).IsProper := by
    cases negative <;> decide +kernel
  rw [ofDecimal] at h
  split at h
  · subst h
    exact ⟨hzero, .inl ⟨0, rfl⟩⟩
  split at h
  · subst h
    exact ⟨trivial, .inr rfl⟩
  split at h
  · subst h
    exact ⟨hzero, .inl ⟨0, rfl⟩⟩
  split at h
  · exact isRounded_of_ofRatio h
  · exact isRounded_of_ofRatio h

/-- **The number of a literal** is proper and not negative. -/
theorem exists_quanta_of_isNumeral {text : String} {value : Binary32}
    (hs : isNumeral text.toList = true) (hv : ofText? text = some value) (hf : value.IsFinite) :
    value.IsProper ∧ ∃ quanta, value = .finite false quanta := by
  have hhead : ∀ c ∈ text.toList.head?, c.isDigit = true := by
    intro c hc
    obtain ⟨cs, hcs⟩ := List.head?_eq_some_iff.mp hc
    rw [hcs] at hs
    exact (Bool.and_eq_true_iff.mp hs).1
  simp only [ofText?, ofChars?, splitSign_digits hhead] at hv
  split at hv
  · obtain ⟨hproper, hfinite | rfl⟩ := isRounded_of_ofDecimal (Option.some.inj hv)
    · exact ⟨hproper, hfinite⟩
    · cases hf
  · -- no word is read as a finite number
    simp only [ofWord?] at hv
    split at hv
    · cases hv
      cases hf
    · split at hv
      · cases hv
        cases hf
      · cases hv

/-! ## Writing -/

/-- The text of a number that is not negative is a numeral. -/
theorem exists_numeral_text {quanta : Nat} (h : (Binary32.finite false quanta).IsProper) :
    ∃ n : Numeral, (Binary32.finite false quanta).text.toList = n.chars := by
  cases quanta with
  | zero =>
    exact ⟨⟨['0'], [], none, isDigit_replicate_zero 1, List.cons_ne_nil _ _, .inl rfl, nofun⟩, rfl⟩
  | succ quanta =>
    have hread := ofDecimal_shortest .up h (Nat.succ_ne_zero quanta)
    obtain ⟨n, hn⟩ := exists_writes_positional
      (digits_ne_zero_of_ofDecimal (Nat.succ_ne_zero quanta) hread) 0
    simp only [if_true, ite_self, List.append_nil] at hn
    have htext : (Binary32.finite false (quanta + 1)).text =
        String.ofList (shortest .up (quanta + 1)).positional := rfl
    exact ⟨n, by rw [htext, String.toList_ofList, hn.chars_eq]⟩

end Binary32

/-- The characters of a numeral. -/
theorem Decimal.Numeral.mem_chars {n : Numeral} {c : Char} (h : c ∈ n.chars) :
    c.isDigit = true ∨ c = '.' ∨ c = 'e' ∨ c = '-' := by
  rw [chars, fractionChars, exponentChars] at h
  rcases List.mem_append.mp h with h | h
  · exact .inl (n.whole_digits c h)
  rcases List.mem_append.mp h with h | h
  · split at h
    · cases h
    · rcases List.mem_cons.mp h with h | h
      · exact .inr (.inl h)
      · exact .inl (n.fraction_digits c h)
  · split at h
    · cases h
    · next e _ =>
      rw [toList_toString] at h
      rcases List.mem_cons.mp h with h | h
      · exact .inr (.inr (.inl h))
      rcases List.mem_append.mp h with h | h
      · split at h
        · exact .inr (.inr (.inr (List.mem_singleton.mp h)))
        · cases h
      · exact .inl (isDigit_digitChars _ c h)

end ScriptGraph
