import ScriptGraph.Json.Reader
import ScriptGraph.Proofs.Binary32.Text

/-!
# Documents read back

A document written in a layout whose white space is blank is read back as it was, whatever its
strings contain, if its numbers are written as numbers and it does not nest too deeply.

* `Reader.Reads` — a reader takes some characters and yields a value; what it says about places in
  the text is left out;
* `Reader.reads_stringRest` — escaped characters are unescaped;
* `Reader.reads_number` — a number is taken up to its last character;
* `Readable` — the documents of which the main statement speaks;
* `parse_chars` — they are read back.
-/

namespace ScriptGraph

namespace Json

open Decimal (Numeral)

/-! ## The range of numbers -/

namespace Number

/-- Rounding at most doubles a number. -/
theorem round_le (n : Nat) : round n ≤ 2 * n := by
  by_cases hn : n = 0
  · subst hn
    decide
  simp only [round, roundToBits, Nat.div_one, Nat.one_mul, Nat.pow_eq]
  generalize hs : 2 ^ (Nat.log2 n + 1 - 53) = spacing
  have hspacing : spacing ≤ n :=
    calc spacing ≤ 2 ^ Nat.log2 n := hs ▸ Nat.pow_le_pow_right (by decide) (by omega)
      _ ≤ n := Nat.log2_self_le hn
  calc divNearestEven n spacing * spacing
      ≤ (n / spacing + 1) * spacing := Nat.mul_le_mul_right _ (divNearestEven_le n spacing)
    _ = n / spacing * spacing + spacing := Nat.succ_mul _ _
    _ ≤ 2 * n := by
      have := Nat.div_mul_le_self n spacing
      omega

theorem appendDigits_lt {n : Nat} (hn : n < wordBound) (cs : List Char) :
    (appendDigits n cs).1 < wordBound := by
  induction cs generalizing n with
  | nil => exact hn
  | cons c cs ih =>
    rw [appendDigits]
    split
    · next h => exact ih h
    · exact hn

theorem length_appendDigits_le (n : Nat) (cs : List Char) :
    (appendDigits n cs).2.length ≤ cs.length := by
  induction cs generalizing n with
  | nil => exact Nat.le_refl 0
  | cons c cs ih =>
    rw [appendDigits]
    split
    · exact Nat.le_succ_of_le (ih _)
    · exact Nat.le_refl _

/-- A number of less than 250 digits before its point is within the range. -/
theorem isOutOfRange_eq_false {whole : List Char} {power : Int} (fraction : List Char)
    (h : power + whole.length ≤ 250) : isOutOfRange whole fraction power = false := by
  have hdigits : (leading whole fraction power).digits < wordBound :=
    appendDigits_lt (appendDigits_lt (by decide) whole) fraction
  have hexp : (leading whole fraction power).exponent ≤ 250 := by
    have := length_appendDigits_le 0 whole
    simp only [leading]
    omega
  generalize hd : leading whole fraction power = d at hdigits hexp
  simp only [isOutOfRange, hd]
  split
  · rfl
  · rw [if_neg (by omega), decide_eq_false_iff_not, Nat.not_le]
    have hten : Nat.pow 10 d.exponent.toNat ≤ 10 ^ 250 :=
      Nat.pow_le_pow_right (by decide) (by omega)
    have hproduct : round d.digits * round (Nat.pow 10 d.exponent.toNat) ≤
        2 * wordBound * (2 * 10 ^ 250) :=
      Nat.mul_le_mul (Nat.le_trans (round_le _) (Nat.mul_le_mul_left 2 (Nat.le_of_lt hdigits)))
        (Nat.le_trans (round_le _) (Nat.mul_le_mul_left 2 hten))
    calc round (round d.digits * round (Nat.pow 10 d.exponent.toNat))
        ≤ 2 * (2 * wordBound * (2 * 10 ^ 250)) :=
          Nat.le_trans (round_le _) (Nat.mul_le_mul_left 2 hproduct)
      _ < rangeBound := by decide +kernel

end Number

namespace Reader

/-! ## Readers that succeed -/

/-- A reader takes the characters before `after` from those in `before`, and yields a value. -/
def Reads {α : Type} (r : Reader α) (before : List Char) (a : α) (after : List Char) : Prop :=
  ∀ p, ∃ p', r ⟨before, p⟩ = .ok a ⟨after, p'⟩

section Rules

variable {α β : Type} {r : Reader α} {f : α → Reader β} {cs cs' cs'' : List Char} {a : α} {b : β}

theorem Reads.pure : Reads (Pure.pure a) cs a cs :=
  fun p => ⟨p, rfl⟩

theorem Reads.bind (h : Reads r cs a cs') (h' : Reads (f a) cs' b cs'') :
    Reads (r >>= f) cs b cs'' := by
  intro p
  obtain ⟨p', hp⟩ := h p
  obtain ⟨p'', hp'⟩ := h' p'
  exact ⟨p'', by simp only [Bind.bind, EStateM.bind, hp, hp']⟩

theorem Reads.map (h : Reads r cs a cs') (g : α → β) : Reads (g <$> r) cs (g a) cs' := by
  intro p
  obtain ⟨p', hp⟩ := h p
  exact ⟨p', by simp only [Functor.map, EStateM.map, hp]⟩

/-- A reader may look at what remains before it goes on. -/
theorem Reads.get {f : Input → Reader β} (h : ∀ p, Reads (f ⟨cs, p⟩) cs b cs') :
    Reads (MonadState.get >>= f) cs b cs' := by
  intro p
  obtain ⟨p', hp⟩ := h p p
  exact ⟨p', hp⟩

end Rules

theorem reads_peek? (cs : List Char) : Reads peek? cs cs.head? cs :=
  fun p => ⟨p, rfl⟩

theorem reads_next? (c : Char) (cs : List Char) : Reads next? (c :: cs) (some c) cs :=
  fun _ => ⟨_, rfl⟩

theorem reads_discard_next? (c : Char) (cs : List Char) :
    Reads (discard next?) (c :: cs) () cs :=
  fun _ => ⟨_, rfl⟩

theorem reads_takeWhile (test : Char → Bool) (cs : List Char) :
    Reads (takeWhile test) cs (cs.takeWhile test) (cs.dropWhile test) :=
  fun _ => ⟨_, rfl⟩

/-- Are all characters blanks? -/
def AllBlank (cs : List Char) : Prop :=
  ∀ c ∈ cs, isBlank c = true

theorem reads_peekPart? {blanks cs : List Char} (hblanks : AllBlank blanks)
    (hcs : ∀ c ∈ cs.head?, isBlank c = false) : Reads peekPart? (blanks ++ cs) cs.head? cs := by
  have hdrop : (blanks ++ cs).dropWhile isBlank = cs := by
    rw [List.dropWhile_append_of_pos hblanks]
    cases cs with
    | nil => rfl
    | cons c cs => exact List.dropWhile_cons_of_neg (by simp [hcs c rfl])
  have hskip : Reads (discard (takeWhile isBlank)) (blanks ++ cs) () cs := by
    have h := (reads_takeWhile isBlank (blanks ++ cs)).map (Function.const _ ())
    rwa [hdrop] at h
  exact hskip.bind (reads_peek? cs)

/-! ## Strings -/

theorem reads_skip (cs rest : List Char) : Reads (skip cs.length) (cs ++ rest) () rest := by
  induction cs with
  | nil => exact Reads.pure
  | cons c cs ih => exact (reads_discard_next? c (cs ++ rest)).bind ih

/-- A control character is escaped by its code. -/
theorem hex_control : ∀ n : Fin 32,
    let digits := ['0', '0', hexDigit (n.val / 16), hexDigit (n.val % 16)]
    hexValue4? digits = some n.val ∧
      ¬digits.foldl (fun size c => size + c.utf8Size) 0 < 4 := by
  decide +kernel

theorem reads_codeEscape {c : Char} (hc : c.toNat < 0x20) (rest : List Char) :
    Reads codeEscape
      (['0', '0', hexDigit (c.toNat / 16), hexDigit (c.toNat % 16)] ++ rest) c rest := by
  obtain ⟨hvalue, hsize⟩ := hex_control ⟨c.toNat, hc⟩
  have hhex : Reads hex4
      (['0', '0', hexDigit (c.toNat / 16), hexDigit (c.toNat % 16)] ++ rest) c.toNat rest := by
    refine Reads.get fun p => ?_
    have htake : (['0', '0', hexDigit (c.toNat / 16), hexDigit (c.toNat % 16)] ++ rest).take 4 =
        ['0', '0', hexDigit (c.toNat / 16), hexDigit (c.toNat % 16)] := rfl
    simp only [htake, if_neg hsize, hvalue]
    exact (reads_skip ['0', '0', hexDigit (c.toNat / 16), hexDigit (c.toNat % 16)] rest).bind
      Reads.pure
  refine hhex.bind ?_
  rw [if_neg (by simp; omega), if_neg (by simp; omega), Char.ofNat_toNat]
  exact Reads.pure

/-- A character stands for itself in a string, or behind a backslash stands what is read as it. -/
theorem escapeChar_cases (c : Char) :
    (∃ cs, escapeChar c = '\\' :: cs ∧ ∀ rest, Reads escape (cs ++ rest) c rest) ∨
      (escapeChar c = [c] ∧ c ≠ '"' ∧ c ≠ '\\' ∧ ¬c.toNat < 0x20) := by
  have hofNat : ∀ {n : Nat}, c.toNat = n → c = Char.ofNat n := fun h => by
    rw [← h, Char.ofNat_toNat]
  have hletter : ∀ {d value : Char}, c = value → (∀ rest, Reads escape (d :: rest) value rest) →
      (∃ cs, ['\\', d] = '\\' :: cs ∧ ∀ rest, Reads escape (cs ++ rest) c rest) ∨
        (['\\', d] = [c] ∧ c ≠ '"' ∧ c ≠ '\\' ∧ ¬c.toNat < 0x20) := by
    rintro d _ rfl h
    exact .inl ⟨_, rfl, h⟩
  rw [escapeChar]
  split_ifs with hquote hslash hb ht hn hf hr hcontrol
  · exact hletter hquote fun rest => (reads_next? _ rest).bind Reads.pure
  · exact hletter hslash fun rest => (reads_next? _ rest).bind Reads.pure
  · exact hletter (hofNat hb) fun rest => (reads_next? _ rest).bind Reads.pure
  · exact hletter (hofNat ht) fun rest => (reads_next? _ rest).bind Reads.pure
  · exact hletter (hofNat hn) fun rest => (reads_next? _ rest).bind Reads.pure
  · exact hletter (hofNat hf) fun rest => (reads_next? _ rest).bind Reads.pure
  · exact hletter (hofNat hr) fun rest => (reads_next? _ rest).bind Reads.pure
  · exact .inl ⟨_, rfl, fun rest => (reads_next? 'u' _).bind (reads_codeEscape hcontrol rest)⟩
  · exact .inr ⟨rfl, hquote, hslash, hcontrol⟩

/-- Escaped characters are unescaped up to the closing quote. -/
theorem reads_stringRest (cs rest : List Char) {n : Nat} (hn : cs.length < n) :
    Reads (stringRest n) (cs.flatMap escapeChar ++ '"' :: rest) cs rest := by
  induction cs generalizing n with
  | nil =>
    obtain ⟨n, rfl⟩ := Nat.exists_eq_succ_of_ne_zero (Nat.ne_of_gt hn)
    exact (reads_next? '"' rest).bind Reads.pure
  | cons c cs ih =>
    obtain ⟨n, rfl⟩ := Nat.exists_eq_succ_of_ne_zero (Nat.ne_of_gt (Nat.zero_lt_of_lt hn))
    have hrest := ih (Nat.lt_of_succ_lt_succ hn)
    rw [List.flatMap_cons, List.append_assoc]
    rcases escapeChar_cases c with ⟨ds, hds, hread⟩ | ⟨hself, hquote, hslash, hcontrol⟩
    · rw [hds, List.cons_append]
      exact (reads_next? _ _).bind ((hread _).bind (hrest.bind Reads.pure))
    · rw [hself, List.singleton_append]
      refine (reads_next? _ _).bind ?_
      simp only [if_neg hquote, if_neg hslash, if_neg hcontrol]
      exact hrest.bind Reads.pure

theorem length_le_flatMap_escapeChar (cs : List Char) :
    cs.length ≤ (cs.flatMap escapeChar).length := by
  induction cs with
  | nil => exact Nat.le_refl 0
  | cons c cs ih =>
    have hpos : 1 ≤ (escapeChar c).length := by
      rcases escapeChar_cases c with ⟨ds, hds, -⟩ | ⟨hself, -⟩
      · rw [hds, List.length_cons]
        omega
      · rw [hself, List.length_singleton]
    rw [List.flatMap_cons, List.length_append, List.length_cons]
    omega

/-- A quoted string is read as the string. -/
theorem reads_string (s : String) (rest : List Char) :
    Reads string (quote s ++ rest) s rest := by
  have hquote : quote s ++ rest = '"' :: (s.toList.flatMap escapeChar ++ '"' :: rest) := by
    simp [quote]
  rw [hquote]
  refine (reads_discard_next? _ _).bind (Reads.get fun p => ?_)
  have hlen : s.toList.length < (s.toList.flatMap escapeChar ++ '"' :: rest).length := by
    have := length_le_flatMap_escapeChar s.toList
    rw [List.length_append, List.length_cons]
    omega
  refine (reads_stringRest s.toList rest hlen).bind ?_
  rw [String.ofList_toList]
  exact Reads.pure

/-! ## Numbers -/

/-- Does a number end before some characters? -/
def Stops (cs : List Char) : Prop :=
  ∀ c ∈ cs.head?, c.isDigit = false ∧ c ≠ '.' ∧ c ≠ 'e' ∧ c ≠ 'E'

theorem reads_digits {ds rest : List Char} (hds : ∀ c ∈ ds, c.isDigit = true)
    (hrest : ∀ c ∈ rest.head?, c.isDigit = false) :
    Reads (takeWhile Char.isDigit) (ds ++ rest) ds rest := by
  have h := reads_takeWhile Char.isDigit (ds ++ rest)
  rwa [Decimal.takeWhile_digits hds hrest, Decimal.dropWhile_digits hds hrest] at h

theorem reads_wholePart (n : Numeral) {rest : List Char}
    (hrest : ∀ c ∈ rest.head?, c.isDigit = false) :
    Reads wholePart (n.whole ++ rest) n.whole rest := by
  have hdigits := n.whole_digits
  have hzero := n.leading_zero
  obtain ⟨c, cs, hw⟩ := List.exists_cons_of_ne_nil n.whole_ne_nil
  rw [hw] at hdigits hzero ⊢
  refine (reads_next? c (cs ++ rest)).bind ?_
  by_cases hc : c = '0'
  · have hcs : cs = [] := by
      rcases hzero with h | h
      · exact (List.cons.inj h).2
      · exact absurd (congrArg some hc) h
    simp only [if_pos hc, hcs, List.nil_append]
    refine (reads_peek? rest).bind ?_
    cases rest with
    | nil => exact Reads.pure
    | cons d rest =>
      simp only [List.head?_cons, hrest d rfl]
      exact Reads.pure
  · simp only [if_neg hc, if_pos (hdigits c List.mem_cons_self)]
    exact (reads_digits (fun d hd => hdigits d (List.mem_cons_of_mem c hd)) hrest).bind Reads.pure

theorem reads_fractionPart (n : Numeral) {rest : List Char}
    (hrest : ∀ c ∈ rest.head?, c.isDigit = false ∧ c ≠ '.') :
    Reads fractionPart (n.fractionChars ++ rest) n.fractionChars rest := by
  rw [Numeral.fractionChars]
  refine (reads_peek? _).bind ?_
  by_cases hf : n.fraction = []
  · have hpoint : rest.head? ≠ some '.' := fun h => (hrest '.' h).2 rfl
    simp only [if_pos hf, List.nil_append, if_neg hpoint]
    exact Reads.pure
  · have hne : n.fraction.isEmpty = false := by simpa using hf
    simp only [if_neg hf, List.cons_append, List.head?_cons, if_true]
    refine (reads_discard_next? _ _).bind
      ((reads_digits n.fraction_digits fun c hc => (hrest c hc).1).bind ?_)
    simp only [hne]
    exact Reads.pure

theorem reads_exponentPart (n : Numeral) {rest : List Char} (hrest : Stops rest) :
    Reads exponentPart (n.exponentChars ++ rest) n.exponentChars rest := by
  rw [Numeral.exponentChars]
  refine (reads_peek? _).bind ?_
  cases n.exponent with
  | none =>
    have hmark : (rest.head?.any fun c => c == 'e' || c == 'E') = false := by
      cases rest with
      | nil => rfl
      | cons c rest =>
        obtain ⟨-, -, he, hE⟩ := hrest c rfl
        simp [he, hE]
    simp only [List.nil_append, hmark]
    exact Reads.pure
  | some e =>
    have hdigits := Decimal.isDigit_digitChars e.natAbs
    obtain ⟨d, ds, hds⟩ := List.exists_cons_of_ne_nil (Decimal.digitChars_ne_nil e.natAbs)
    simp only [Decimal.toList_toString, hds]
    rw [hds] at hdigits
    have hd := hdigits d List.mem_cons_self
    have htail := reads_digits (fun c hc => hdigits c (List.mem_cons_of_mem d hc))
      fun c hc => (hrest c hc).1
    by_cases he : e < 0
    · simp only [if_pos he, List.cons_append, List.nil_append, List.head?_cons, Option.any_some]
      refine (reads_discard_next? _ _).bind ((reads_peek? _).bind
        (((reads_next? _ _).map _).bind ((reads_next? _ _).bind ?_)))
      simp only [if_pos hd]
      exact htail.bind Reads.pure
    · have hsign : (d == '+' || d == '-') = false := by
        rw [Bool.or_eq_false_iff, beq_eq_false_iff_ne, beq_eq_false_iff_ne]
        constructor <;> rintro rfl <;> cases hd
      simp only [if_neg he, List.nil_append, List.cons_append, List.head?_cons, Option.any_some]
      refine (reads_discard_next? _ _).bind ((reads_peek? _).bind ?_)
      simp only [List.head?_cons, Option.any_some, hsign]
      refine Reads.pure.bind ((reads_next? _ _).bind ?_)
      simp only [if_pos hd]
      exact htail.bind Reads.pure

/-- Takes a number behind its sign. -/
def unsigned (sign : List Char) : Reader (List Char) := do
  let whole ← wholePart
  let fraction ← fractionPart
  let exponent ← exponentPart
  let power := (Decimal.readExponent? exponent).getD 0
  if Number.isOutOfRange whole (fraction.drop 1) power then failHere .numberOutOfRange
  return sign ++ whole ++ fraction ++ exponent

/-- A number is taken up to its last character. -/
theorem reads_number (negative : Bool) (n : Numeral) {rest : List Char} (hrest : Stops rest)
    (hrange : n.power + n.whole.length ≤ 250) :
    Reads number ((Binary32.signed negative n.chars).toList ++ rest)
      (Binary32.signed negative n.chars).toList rest := by
  have hexp : ∀ c ∈ (n.exponentChars ++ rest).head?, c.isDigit = false ∧ c ≠ '.' := by
    intro c hc
    rw [List.head?_append, Option.mem_def, Option.or_eq_some_iff] at hc
    rcases hc with hc | ⟨-, hc⟩
    · rw [n.head_exponentChars c hc]
      decide
    · exact ⟨(hrest c hc).1, (hrest c hc).2.1⟩
  have hfrac : ∀ c ∈ (n.fractionChars ++ (n.exponentChars ++ rest)).head?, c.isDigit = false := by
    intro c hc
    rw [Numeral.fractionChars] at hc
    by_cases hf : n.fraction = []
    · rw [if_pos hf, List.nil_append] at hc
      exact (hexp c hc).1
    · rw [if_neg hf] at hc
      cases hc
      rfl
  have hdrop : n.fractionChars.drop 1 = n.fraction := by
    rw [Numeral.fractionChars]
    split
    · next hf => rw [hf]; rfl
    · rfl
  have hchars : n.chars ++ rest = n.whole ++ (n.fractionChars ++ (n.exponentChars ++ rest)) := by
    simp only [Numeral.chars, List.append_assoc]
  -- what is read behind the sign, whatever has been read as the sign
  have hbody : ∀ sign, Reads (unsigned sign) (n.chars ++ rest) (sign ++ n.chars) rest := by
    intro sign
    have hall : sign ++ n.whole ++ n.fractionChars ++ n.exponentChars = sign ++ n.chars := by
      simp only [Numeral.chars, List.append_assoc]
    rw [hchars]
    refine (reads_wholePart n hfrac).bind ((reads_fractionPart n hexp).bind
      ((reads_exponentPart n hrest).bind ?_))
    simp only [hdrop, n.readExponent?_exponentChars, Option.getD_some,
      Number.isOutOfRange_eq_false n.fraction hrange, hall]
    exact Reads.pure
  rw [Binary32.signed, String.toList_ofList]
  refine (reads_peek? _).bind ?_
  cases negative with
  | true => exact ((reads_next? _ _).map _).bind (hbody ['-'])
  | false =>
    have hminus : (n.chars ++ rest).head? ≠ some '-' := by
      obtain ⟨c, cs, hcs, hc⟩ := n.exists_digit_cons
      rw [hcs]
      rintro ⟨⟩
      cases hc
    simp only [Bool.false_eq_true, if_false, if_neg hminus]
    exact Reads.pure.bind (hbody [])

/-! ## Lists and objects -/

/-- A reader reads back a document at a level, after any blanks and before anything that could not
continue a number. -/
structure ReadsBack (r : Reader Json) (layout : Layout) (level : Nat) (j : Json) : Prop where
  head : ∃ c cs, j.chars layout level = c :: cs ∧ isBlank c = false ∧ c ≠ ']'
  reads : ∀ {blanks rest}, AllBlank blanks → Stops rest →
    Reads r (blanks ++ (j.chars layout level ++ rest)) j rest

theorem allBlank_nil : AllBlank [] := by
  simp [AllBlank]

/-- A number ends before blanks and a character that could not continue it. -/
theorem Stops.blanks_append {blanks rest : List Char} (hblanks : AllBlank blanks)
    (hrest : Stops rest) : Stops (blanks ++ rest) := by
  cases blanks with
  | nil => exact hrest
  | cons b blanks =>
    rintro _ ⟨⟩
    have hb : isBlank b = true := hblanks b List.mem_cons_self
    simp only [isBlank, Bool.or_eq_true, beq_iff_eq] at hb
    rcases hb with ((rfl | rfl) | rfl) | rfl <;> decide

section Parts

variable {layout : Layout} {r : Reader Json} {level : Nat} {closing rest : List Char}

theorem stops_elementChars (hclosing : AllBlank closing) (vs : List Json) :
    Stops (elementChars layout level vs ++ (closing ++ ']' :: rest)) := by
  cases vs with
  | nil =>
    rw [elementChars, List.nil_append]
    exact Stops.blanks_append hclosing (by rintro _ ⟨⟩; decide)
  | cons v vs =>
    rw [elementChars]
    rintro _ ⟨⟩
    decide

theorem reads_elements_close (first : Bool) (n : Nat) (hclosing : AllBlank closing) :
    Reads (elements r first (n + 1)) (closing ++ ']' :: rest) [] rest :=
  (reads_peekPart? hclosing (by rintro _ ⟨⟩; decide)).bind
    ((reads_discard_next? _ _).bind Reads.pure)

/-- The elements behind the first one are read back. -/
theorem reads_elements (hnewline : ∀ level, AllBlank (layout.newline level))
    (hclosing : AllBlank closing) {vs : List Json} (hvs : ∀ v ∈ vs, ReadsBack r layout level v)
    {n : Nat} (hn : vs.length < n) :
    Reads (elements r false n) (elementChars layout level vs ++ (closing ++ ']' :: rest)) vs
      rest := by
  induction vs generalizing n with
  | nil =>
    obtain ⟨n, rfl⟩ := Nat.exists_eq_succ_of_ne_zero (Nat.ne_of_gt hn)
    rw [elementChars, List.nil_append]
    exact reads_elements_close false n hclosing
  | cons v vs ih =>
    obtain ⟨n, rfl⟩ := Nat.exists_eq_succ_of_ne_zero (Nat.ne_of_gt (Nat.zero_lt_of_lt hn))
    have hv := hvs v List.mem_cons_self
    obtain ⟨c, cs, hcs, hblank, hbracket⟩ := hv.head
    have hstops : Stops (elementChars layout level vs ++ (closing ++ ']' :: rest)) :=
      stops_elementChars hclosing vs
    have hfirst := hv.reads allBlank_nil hstops
    have hrest := ih (fun w hw => hvs w (List.mem_cons_of_mem v hw)) (Nat.lt_of_succ_lt_succ hn)
    rw [elementChars]
    simp only [hcs, List.cons_append, List.append_assoc, List.nil_append] at hfirst ⊢
    refine (reads_peekPart? allBlank_nil (by rintro _ ⟨⟩; decide)).bind
      ((reads_discard_next? _ _).bind ((reads_peekPart? (hnewline level) ?_).bind ?_))
    · rintro _ ⟨⟩
      exact hblank
    · simp only [List.head?_cons, if_neg hbracket]
      exact hfirst.bind (hrest.bind Reads.pure)

/-- All elements are read back. -/
theorem reads_elements_first (hnewline : ∀ level, AllBlank (layout.newline level))
    (hclosing : AllBlank closing) {v : Json} {vs : List Json}
    (hvs : ∀ w ∈ v :: vs, ReadsBack r layout level w) {n : Nat} (hn : vs.length + 1 < n) :
    Reads (elements r true n) (layout.newline level ++ (v.chars layout level ++
      (elementChars layout level vs ++ (closing ++ ']' :: rest)))) (v :: vs) rest := by
  obtain ⟨n, rfl⟩ := Nat.exists_eq_succ_of_ne_zero (Nat.ne_of_gt (Nat.zero_lt_of_lt hn))
  have hv := hvs v List.mem_cons_self
  obtain ⟨c, cs, hcs, hblank, hbracket⟩ := hv.head
  have hstops : Stops (elementChars layout level vs ++ (closing ++ ']' :: rest)) :=
    stops_elementChars hclosing vs
  have hfirst := hv.reads allBlank_nil hstops
  have hrest : Reads (elements r false n) (elementChars layout level vs ++ (closing ++ ']' :: rest))
      vs rest :=
    reads_elements hnewline hclosing (fun w hw => hvs w (List.mem_cons_of_mem v hw))
      (Nat.lt_of_succ_lt_succ hn)
  simp only [hcs, List.cons_append, List.nil_append] at hfirst ⊢
  refine (reads_peekPart? (hnewline level) (by rintro _ ⟨⟩; exact hblank)).bind ?_
  simp only [List.head?_cons, if_neg hbracket]
  exact hfirst.bind (hrest.bind Reads.pure)

theorem length_le_elementChars (layout : Layout) (level : Nat) (vs : List Json) :
    vs.length ≤ (elementChars layout level vs).length := by
  induction vs with
  | nil => exact Nat.zero_le _
  | cons v vs ih =>
    rw [elementChars]
    simp only [List.length_append, List.length_cons]
    omega

/-- A list is read back if its elements are. -/
theorem readsBack_array (hnewline : ∀ level, AllBlank (layout.newline level)) {vs : List Json}
    (hvs : ∀ v ∈ vs, ReadsBack r layout (level + 1) v) :
    ReadsBack (valueOf (some r)) layout level (.array vs) := by
  cases vs with
  | nil =>
    refine ⟨⟨'[', [']'], by rw [chars], by decide, by decide⟩, fun {blanks rest} hblanks _ => ?_⟩
    rw [chars]
    exact (reads_peekPart? hblanks (by rintro _ ⟨⟩; decide)).bind
      ((reads_discard_next? _ _).bind (Reads.get fun _ =>
        (reads_elements_close true rest.length allBlank_nil).bind Reads.pure))
  | cons v vs =>
    refine ⟨⟨'[', _, by simp only [chars, List.cons_append]; rfl, by decide, by decide⟩,
      fun {blanks rest} hblanks _ => ?_⟩
    simp only [chars, List.cons_append, List.append_assoc, List.nil_append]
    refine (reads_peekPart? hblanks (by rintro _ ⟨⟩; decide)).bind
      ((reads_discard_next? _ _).bind (Reads.get fun _ =>
        (reads_elements_first hnewline (hnewline level) hvs ?_).bind Reads.pure))
    obtain ⟨c, cs, hcs, -⟩ := (hvs v List.mem_cons_self).head
    have hlen := length_le_elementChars layout (level + 1) vs
    simp only [hcs, List.length_append, List.length_cons]
    omega

/-- A field is read back, after any blanks, if its value is. -/
theorem reads_namedField {blanks spaces : List Char} (hcolon : layout.colon = ':' :: spaces)
    (hspaces : AllBlank spaces) (hblanks : AllBlank blanks) {v : Json}
    (hv : ReadsBack r layout level v) (name : String) (hrest : Stops rest) :
    Reads (namedField r)
      (blanks ++ (quote name ++ (layout.colon ++ (v.chars layout level ++ rest)))) (name, v)
      rest := by
  refine (reads_peekPart? hblanks (by rintro _ ⟨⟩; decide)).bind
    ((reads_string name _).bind ?_)
  rw [hcolon]
  exact (reads_peekPart? allBlank_nil (by rintro _ ⟨⟩; decide)).bind
    ((reads_discard_next? _ _).bind ((hv.reads hspaces hrest).bind Reads.pure))

theorem stops_fieldChars (hclosing : AllBlank closing) (fs : List (String × Json)) :
    Stops (fieldChars layout level fs ++ (closing ++ '\x7d' :: rest)) := by
  cases fs with
  | nil =>
    rw [fieldChars, List.nil_append]
    exact Stops.blanks_append hclosing (by rintro _ ⟨⟩; decide)
  | cons f fs =>
    rw [fieldChars]
    rintro _ ⟨⟩
    decide

theorem reads_fields_close (first : Bool) (n : Nat) (hclosing : AllBlank closing) :
    Reads (fields r first (n + 1)) (closing ++ '\x7d' :: rest) [] rest :=
  (reads_peekPart? hclosing (by rintro _ ⟨⟩; decide)).bind
    ((reads_discard_next? _ _).bind Reads.pure)

/-- The fields behind the first one are read back. -/
theorem reads_fields {spaces : List Char} (hcolon : layout.colon = ':' :: spaces)
    (hspaces : AllBlank spaces) (hnewline : ∀ level, AllBlank (layout.newline level))
    (hclosing : AllBlank closing) {fs : List (String × Json)}
    (hfs : ∀ f ∈ fs, ReadsBack r layout level f.2) {n : Nat} (hn : fs.length < n) :
    Reads (fields r false n) (fieldChars layout level fs ++ (closing ++ '\x7d' :: rest)) fs
      rest := by
  induction fs generalizing n with
  | nil =>
    obtain ⟨n, rfl⟩ := Nat.exists_eq_succ_of_ne_zero (Nat.ne_of_gt hn)
    rw [fieldChars, List.nil_append]
    exact reads_fields_close false n hclosing
  | cons f fs ih =>
    obtain ⟨n, rfl⟩ := Nat.exists_eq_succ_of_ne_zero (Nat.ne_of_gt (Nat.zero_lt_of_lt hn))
    have hstops : Stops (fieldChars layout level fs ++ (closing ++ '\x7d' :: rest)) :=
      stops_fieldChars hclosing fs
    have hfirst := reads_namedField hcolon hspaces (hnewline level) (hfs f List.mem_cons_self) f.1
      hstops
    have hrest := ih (fun g hg => hfs g (List.mem_cons_of_mem f hg)) (Nat.lt_of_succ_lt_succ hn)
    rw [fieldChars]
    simp only [List.cons_append, List.append_assoc] at hfirst ⊢
    exact (reads_peekPart? allBlank_nil (by rintro _ ⟨⟩; decide)).bind
      ((reads_discard_next? _ _).bind (hfirst.bind (hrest.bind Reads.pure)))

/-- All fields are read back. -/
theorem reads_fields_first {spaces : List Char} (hcolon : layout.colon = ':' :: spaces)
    (hspaces : AllBlank spaces) (hnewline : ∀ level, AllBlank (layout.newline level))
    (hclosing : AllBlank closing) {f : String × Json} {fs : List (String × Json)}
    (hfs : ∀ g ∈ f :: fs, ReadsBack r layout level g.2) {n : Nat} (hn : fs.length + 1 < n) :
    Reads (fields r true n) (layout.newline level ++ (quote f.1 ++ (layout.colon ++
      (f.2.chars layout level ++ (fieldChars layout level fs ++ (closing ++ '\x7d' :: rest))))))
      (f :: fs) rest := by
  obtain ⟨n, rfl⟩ := Nat.exists_eq_succ_of_ne_zero (Nat.ne_of_gt (Nat.zero_lt_of_lt hn))
  have hstops : Stops (fieldChars layout level fs ++ (closing ++ '\x7d' :: rest)) :=
    stops_fieldChars hclosing fs
  have hfirst := reads_namedField hcolon hspaces allBlank_nil (hfs f List.mem_cons_self) f.1 hstops
  have hrest : Reads (fields r false n) (fieldChars layout level fs ++ (closing ++ '\x7d' :: rest))
      fs rest :=
    reads_fields hcolon hspaces hnewline hclosing (fun g hg => hfs g (List.mem_cons_of_mem f hg))
      (Nat.lt_of_succ_lt_succ hn)
  refine (reads_peekPart? (hnewline level) (by rintro _ ⟨⟩; decide)).bind ?_
  exact hfirst.bind (hrest.bind Reads.pure)

theorem length_le_fieldChars (layout : Layout) (level : Nat) (fs : List (String × Json)) :
    fs.length ≤ (fieldChars layout level fs).length := by
  induction fs with
  | nil => exact Nat.zero_le _
  | cons f fs ih =>
    rw [fieldChars]
    simp only [List.length_append, List.length_cons]
    omega

/-- An object is read back if the values of its fields are. -/
theorem readsBack_object {spaces : List Char} (hcolon : layout.colon = ':' :: spaces)
    (hspaces : AllBlank spaces) (hnewline : ∀ level, AllBlank (layout.newline level))
    {fs : List (String × Json)} (hfs : ∀ f ∈ fs, ReadsBack r layout (level + 1) f.2) :
    ReadsBack (valueOf (some r)) layout level (.object fs) := by
  cases fs with
  | nil =>
    refine ⟨⟨'\x7b', ['\x7d'], by rw [chars], by decide, by decide⟩,
      fun {blanks rest} hblanks _ => ?_⟩
    rw [chars]
    exact (reads_peekPart? hblanks (by rintro _ ⟨⟩; decide)).bind
      ((reads_discard_next? _ _).bind (Reads.get fun _ =>
        (reads_fields_close true rest.length allBlank_nil).bind Reads.pure))
  | cons f fs =>
    refine ⟨⟨'\x7b', _, by simp only [chars, List.cons_append]; rfl, by decide, by decide⟩,
      fun {blanks rest} hblanks _ => ?_⟩
    simp only [chars, List.cons_append, List.append_assoc, List.nil_append]
    refine (reads_peekPart? hblanks (by rintro _ ⟨⟩; decide)).bind
      ((reads_discard_next? _ _).bind (Reads.get fun _ =>
        (reads_fields_first hcolon hspaces hnewline (hnewline level) hfs ?_).bind Reads.pure))
    have hlen := length_le_fieldChars layout (level + 1) fs
    simp only [hcolon, List.length_append, List.length_cons]
    omega

end Parts

theorem reads_word (cs rest : List Char) : Reads (word cs) (cs ++ rest) () rest := by
  induction cs with
  | nil => exact Reads.pure
  | cons c cs ih =>
    refine (reads_next? c (cs ++ rest)).bind ?_
    simp only [if_true]
    exact ih

end Reader

open Reader

/-! ## Documents -/

/-- Is the white space of a layout blank? -/
structure Layout.IsBlank (layout : Layout) : Prop where
  newline : ∀ level, AllBlank (layout.newline level)
  colon : ∃ spaces, layout.colon = ':' :: spaces ∧ AllBlank spaces

theorem Layout.isBlank_pretty : Layout.pretty.IsBlank where
  newline level := by
    intro c hc
    rcases List.mem_cons.mp hc with rfl | hc
    · rfl
    · rw [List.eq_of_mem_replicate hc]
      rfl
  colon := ⟨[' '], rfl, by simp [AllBlank, isBlank]⟩

/-- A document that nests no deeper than a number of levels, and in which every number is written as
one and is not too large. -/
inductive Readable : Nat → Json → Prop where
  | null {depth : Nat} : Readable depth .null
  | bool {depth : Nat} (value : Bool) : Readable depth (.bool value)
  | number {depth : Nat} (negative : Bool) (n : Numeral) (h : n.power + n.whole.length ≤ 250) :
    Readable depth (.number (Binary32.signed negative n.chars))
  | string {depth : Nat} (value : String) : Readable depth (.string value)
  | array {depth : Nat} {elements : List Json} (h : ∀ v ∈ elements, Readable depth v) :
    Readable (depth + 1) (.array elements)
  | object {depth : Nat} {fields : List (String × Json)} (h : ∀ f ∈ fields, Readable depth f.2) :
    Readable (depth + 1) (.object fields)

theorem exists_valueOf (depth : Nat) : ∃ inner, value depth = valueOf inner := by
  cases depth with
  | zero => exact ⟨none, rfl⟩
  | succ depth => exact ⟨some (value depth), rfl⟩

theorem exists_signed_cons (negative : Bool) (n : Numeral) :
    ∃ c cs, (Binary32.signed negative n.chars).toList = c :: cs ∧
      (c = '-' || c.isDigit) = true := by
  rw [Binary32.signed, String.toList_ofList]
  cases negative with
  | true => exact ⟨'-', n.chars, rfl, rfl⟩
  | false =>
    obtain ⟨c, cs, hcs, hc⟩ := n.exists_digit_cons
    exact ⟨c, cs, hcs, by simp [hc]⟩

theorem readsBack_number (inner : Option (Reader Json)) (layout : Layout) (level : Nat)
    (negative : Bool) (n : Numeral) (hrange : n.power + n.whole.length ≤ 250) :
    ReadsBack (valueOf inner) layout level (.number (Binary32.signed negative n.chars)) := by
  obtain ⟨c, cs, hcs, hc⟩ := exists_signed_cons negative n
  -- the first character tells a number from all other documents
  have hne : ∀ {d : Char}, (d = '-' || d.isDigit) = false → c ≠ d := by
    rintro d hd rfl
    rw [hc] at hd
    cases hd
  have hblank : isBlank c = false := by
    simp only [isBlank, Bool.or_eq_false_iff, beq_eq_false_iff_ne]
    exact ⟨⟨⟨hne rfl, hne rfl⟩, hne rfl⟩, hne rfl⟩
  refine ⟨⟨c, cs, by rw [chars, hcs], hblank, hne rfl⟩, fun {blanks rest} hblanks hrest => ?_⟩
  have hnumber := reads_number negative n hrest hrange
  rw [chars]
  rw [hcs, List.cons_append] at hnumber ⊢
  refine (reads_peekPart? hblanks (by rintro _ ⟨⟩; exact hblank)).bind ?_
  simp only [List.head?_cons, if_neg (hne (d := 'n') rfl), if_neg (hne (d := 't') rfl),
    if_neg (hne (d := 'f') rfl), if_pos hc]
  refine hnumber.bind ?_
  rw [← hcs, String.ofList_toList]
  exact Reads.pure

theorem Readable.readsBack {depth : Nat} {j : Json} (h : Readable depth j) {layout : Layout}
    (hlayout : layout.IsBlank) (level : Nat) : ReadsBack (value depth) layout level j := by
  obtain ⟨spaces, hcolon, hspaces⟩ := hlayout.colon
  induction h generalizing level with
  | @null depth =>
    obtain ⟨inner, hinner⟩ := exists_valueOf depth
    rw [hinner]
    refine ⟨⟨'n', _, by rw [chars]; rfl, by decide, by decide⟩, fun hblanks _ => ?_⟩
    rw [chars]
    exact (reads_peekPart? hblanks (by rintro _ ⟨⟩; decide)).bind ((reads_word _ _).bind Reads.pure)
  | @bool depth value =>
    obtain ⟨inner, hinner⟩ := exists_valueOf depth
    rw [hinner]
    cases value with
    | true =>
      refine ⟨⟨'t', _, by rw [chars]; rfl, by decide, by decide⟩, fun hblanks _ => ?_⟩
      rw [chars]
      exact (reads_peekPart? hblanks (by rintro _ ⟨⟩; decide)).bind
        ((reads_word _ _).bind Reads.pure)
    | false =>
      refine ⟨⟨'f', _, by rw [chars]; rfl, by decide, by decide⟩, fun hblanks _ => ?_⟩
      rw [chars]
      exact (reads_peekPart? hblanks (by rintro _ ⟨⟩; decide)).bind
        ((reads_word _ _).bind Reads.pure)
  | @number depth negative n hrange =>
    obtain ⟨inner, hinner⟩ := exists_valueOf depth
    rw [hinner]
    exact readsBack_number inner layout level negative n hrange
  | @string depth value =>
    obtain ⟨inner, hinner⟩ := exists_valueOf depth
    rw [hinner]
    refine ⟨⟨'"', _, by rw [chars]; rfl, by decide, by decide⟩, fun hblanks _ => ?_⟩
    rw [chars]
    exact (reads_peekPart? hblanks (by rintro _ ⟨⟩; decide)).bind
      ((reads_string _ _).bind Reads.pure)
  | array _ ih => exact readsBack_array hlayout.newline fun v hv => ih v hv (level + 1)
  | object _ ih =>
    exact readsBack_object hcolon hspaces hlayout.newline fun f hf => ih f hf (level + 1)

/-- **A document is read back** from its characters in any layout whose white space is blank. -/
theorem parse_chars {j : Json} (h : Readable 127 j) {layout : Layout} (hlayout : layout.IsBlank)
    (level : Nat) : parse (String.ofList (j.chars layout level)) = .ok j := by
  have hread : Reads (toEnd (value 127)) (j.chars layout level) j [] := by
    have hvalue : Reads (value 127) ([] ++ (j.chars layout level ++ [])) j [] :=
      (h.readsBack hlayout level).reads allBlank_nil (by rintro _ ⟨⟩)
    rw [List.nil_append, List.append_nil] at hvalue
    exact hvalue.bind ((reads_peekPart? allBlank_nil (by rintro _ ⟨⟩)).bind Reads.pure)
  obtain ⟨p, hp⟩ := hread ⟨1, 0⟩
  rw [parse, Reader.read, String.toList_ofList, hp]

end Json

end ScriptGraph
