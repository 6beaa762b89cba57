import Mathlib
import ScriptGraph.Builtin.Basic
import ScriptGraph.Proofs.Token.Alphabet

/-!
# Entries of the table of builtins and how they are found

An entry is listed under its normalized name: a function under its class and its name in lower case,
anything else under its name as it is. A look-up lowers the name that it is given. Both sides agree on
functions. On constants they agree if the entry was added in lower case; a constant with a capital
letter is listed where no look-up looks.

* `Text.isUpper_of_mem_lower`, `Text.lower_ne_of_isWord` — lower-case forms have no capital letters, so
  a word with one is no lower-case form;
* `Builtins.normalize_dotted`, `Builtins.normalize_of_not_mem` — normalized names;
* `Builtins.get?_add` — what an added entry changes;
* `Builtins.add_lookup` — which look-ups find an added entry.
-/

namespace ScriptGraph

open Scanner

/-! ## Lower case -/

namespace Text

theorem isUpper_iff {c : Char} : c.isUpper = true ↔ 65 ≤ c.toNat ∧ c.toNat ≤ 90 := by
  have h : c.isUpper = decide (c.val ≥ 'A'.val ∧ c.val ≤ 'Z'.val) := rfl
  rw [h, decide_eq_true_iff]
  exact Iff.rfl

/-- The lower-case forms of characters beyond ASCII come behind the capital letters. -/
theorem lt_of_mem_lowerRanges : ∀ r ∈ lowerRanges, 90 < r.first + r.offset := by
  decide +kernel

theorem isUpper_lowerChar (c : Char) : (lowerChar c).isUpper = false := by
  rw [lowerChar]
  split
  · exact c.isUpper_toLower_eq_false
  · next hascii =>
    rw [Bool.eq_false_iff, Ne, isUpper_iff]
    split
    · next r hr =>
      have hfirst : r.first ≤ c.toNat := by
        have hin := List.find?_some hr
        simp only [Bool.and_eq_true, decide_eq_true_eq] at hin
        exact hin.1.1
      have hlt := lt_of_mem_lowerRanges r (List.mem_of_find?_eq_some hr)
      -- the form is beyond the capital letters, or no character at all and so replaced by NUL
      rw [Char.toNat_ofNat]
      split <;> omega
    · omega

/-- The lower-case form of a character has no capital letter. -/
theorem isUpper_of_mem_lowerBetween {before after : List Char} {c d : Char}
    (h : d ∈ lowerBetween before c after) : d.isUpper = false := by
  rw [lowerBetween] at h
  split at h
  · obtain rfl := List.mem_singleton.mp h
    split <;> decide
  · split at h
    · simp only [List.mem_cons, List.not_mem_nil, or_false] at h
      rcases h with rfl | rfl <;> decide
    · obtain rfl := List.mem_singleton.mp h
      exact isUpper_lowerChar c

/-- Neither has that of a text. -/
theorem isUpper_of_mem_lower {text : String} {c : Char} (h : c ∈ (lower text).toList) :
    c.isUpper = false := by
  rw [lower, String.toList_ofList] at h
  generalize ([] : List Char) = before at h
  generalize text.toList = cs at h
  induction cs generalizing before with
  | nil => cases h
  | cons d cs ih =>
    rcases List.mem_append.mp h with h | h
    · exact isUpper_of_mem_lowerBetween h
    · exact ih _ h

/-- Characters of ASCII that are no capital letters are their own lower-case forms. -/
theorem lowerAfter_eq_self {cs : List Char} (h : ∀ c ∈ cs, c.toNat < 128 ∧ c.isUpper = false)
    (before : List Char) : lowerAfter before cs = cs := by
  induction cs generalizing before with
  | nil => rfl
  | cons c cs ih =>
    obtain ⟨⟨hascii, hupper⟩, hcs⟩ := List.forall_mem_cons.mp h
    have hsigma : c ≠ 'Σ' := by
      rintro rfl
      exact absurd hascii (by decide)
    have hdotted : c ≠ 'İ' := by
      rintro rfl
      exact absurd hascii (by decide)
    have hchar : lowerChar c = c := by
      rw [lowerChar, if_pos hascii]
      exact Char.toLower_eq_of_not_isUpper (by rw [hupper]; exact Bool.false_ne_true)
    rw [lowerAfter, lowerBetween, if_neg hsigma, if_neg hdotted, hchar, ih hcs]
    rfl

theorem toNat_of_isWordChar {c : Char} (h : isWordChar c = true) : c.toNat < 128 := by
  rw [isWordChar_eq, Bool.or_eq_true] at h
  rcases h with h | h
  · exact Nat.lt_of_le_of_lt (toNat_of_isWordStart h).2 (by decide)
  · exact Nat.lt_of_le_of_lt (toNat_of_isDigit h).2 (by decide)

/-- A word that is not in lower case is not the lower-case form of anything. -/
theorem lower_ne_of_isWord {name : String} (hw : isWord name.toList = true) (h : lower name ≠ name)
    (other : String) : lower other ≠ name := by
  intro he
  apply h
  have hself : lowerAfter [] name.toList = name.toList :=
    lowerAfter_eq_self (fun c hc => ⟨toNat_of_isWordChar (isWordChar_of_isWord hw c hc),
      isUpper_of_mem_lower (he ▸ hc)⟩) []
  rw [lower, hself, String.ofList_toList]

end Text

/-- A word has no dot. -/
theorem dot_not_mem_of_isWord {cs : List Char} (h : isWord cs = true) : '.' ∉ cs :=
  fun hd => absurd (isWordChar_of_isWord h '.' hd) (by decide)

/-! ## Look-ups -/

namespace Builtins

/-- A name without a dot is listed as it is. -/
theorem normalize_of_not_mem {name : String} (h : '.' ∉ name.toList) : normalize name = name := by
  have hall : ∀ c ∈ name.toList, (c != '.') = true := by
    intro c hc
    exact bne_iff_ne.mpr fun he => h (he ▸ hc)
  have hnil : name.toList.dropWhile (· != '.') = [] := List.dropWhile_eq_nil_iff.mpr hall
  simp only [normalize, hnil]

/-- The first dot divides a name. -/
theorem span_dot {before : List Char} (h : '.' ∉ before) (behind : List Char) :
    (before ++ '.' :: behind).takeWhile (· != '.') = before ∧
      (before ++ '.' :: behind).dropWhile (· != '.') = '.' :: behind := by
  refine span_append (fun c hc => ?_) (by simp)
  exact bne_iff_ne.mpr fun he => h (he ▸ hc)

/-- A name with a dot is listed in lower case behind its first dot. -/
theorem normalize_dotted {className member : String} (h : '.' ∉ className.toList) :
    normalize (className ++ "." ++ member) = className ++ "." ++ Text.lower member := by
  have hlist : (className ++ "." ++ member).toList = className.toList ++ '.' :: member.toList := by
    simp
  obtain ⟨htake, hdrop⟩ := span_dot h member.toList
  simp only [normalize, hlist, htake, hdrop, String.ofList_toList]

/-- An added entry is found under its normalized name, and changes nothing else. -/
theorem get?_add (b : Builtins) (name : String) (opcode : Opcode) (key : String) :
    (b.add name opcode).get? key = if key = normalize name then some opcode else b.get? key := by
  split
  · next h => rw [h, add, Dictionary.get?_insert_self]
  · next h => rw [add, Dictionary.get?_insert_of_ne h]

/-- **What finds an added entry.** A function is found by every spelling of its name. A constant in
lower case is found by every spelling of its name too. A constant that has a capital letter is found by
none, and no look-up of a constant or of a function tells that it was added. All other entries stay as
they were. -/
theorem add_lookup (b : Builtins) (name : String) (opcode : Opcode) :
    (∀ className member, name = className ++ "." ++ member → '.' ∉ className.toList →
      ∀ spelling, Text.lower spelling = Text.lower member →
        (b.add name opcode).member? className spelling = some opcode) ∧
    (isWord name.toList = true →
      (Text.lower name = name → ∀ spelling, Text.lower spelling = Text.lower name →
        (b.add name opcode).constant? spelling = some opcode) ∧
      (Text.lower name ≠ name →
        (∀ spelling, (b.add name opcode).constant? spelling = b.constant? spelling) ∧
        ∀ className spelling,
          (b.add name opcode).member? className spelling = b.member? className spelling)) ∧
    ∀ key, key ≠ normalize name → (b.add name opcode).get? key = b.get? key := by
  refine ⟨?_, fun hw => ?_, fun key hkey => ?_⟩
  · rintro className member rfl hdot spelling hs
    rw [member?, get?_add, normalize_dotted hdot, hs, if_pos rfl]
  · have hdot := dot_not_mem_of_isWord hw
    refine ⟨fun hl spelling hs => ?_, fun hl => ⟨fun spelling => ?_, fun className spelling => ?_⟩⟩
    · rw [constant?, get?_add, normalize_of_not_mem hdot, hs, if_pos hl]
    · rw [constant?, get?_add, normalize_of_not_mem hdot,
        if_neg (Text.lower_ne_of_isWord hw hl spelling), constant?]
    · have hne : className ++ "." ++ Text.lower spelling ≠ name := by
        rintro rfl
        exact hdot (by simp)
      rw [member?, get?_add, normalize_of_not_mem hdot, if_neg hne, member?]
  · rw [get?_add, if_neg hkey]

/-- A function that was added in mixed case is found by another spelling, and a constant that was
added in lower case too. -/
theorem add_lookup_spellings :
    (standard.add "Math.Lerp_V3" 120).member? "Math" "LERP_v3" = some 120 ∧
      (standard.add "jump_key" 121).constant? "Jump_Key" = some 121 := by
  refine ⟨(add_lookup standard "Math.Lerp_V3" 120).1 "Math" "Lerp_V3" rfl (by decide) "LERP_v3"
    (by decide +kernel), ?_⟩
  exact ((add_lookup standard "jump_key" 121).2.1 (by decide)).1 (by decide +kernel) "Jump_Key"
    (by decide +kernel)

/-- A constant that was added with capital letters is listed, but not found by the spelling that it
was added under. -/
theorem capitalized_constant_not_found :
    isWord "Jump_Key".toList = true ∧
      (standard.add "Jump_Key" 121).get? "Jump_Key" = some 121 ∧
      (standard.add "Jump_Key" 121).constant? "Jump_Key" = none := by
  decide +kernel

end Builtins

end ScriptGraph
