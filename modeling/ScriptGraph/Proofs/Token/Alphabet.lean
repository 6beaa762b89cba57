import Mathlib.Algebra.Group.Nat.Even
import Mathlib.Algebra.Ring.Parity
import Mathlib.Data.List.Induction
import ScriptGraph.Proofs.Token.Segmentation

/-!
# Which texts have tokens

Whether a text can be scanned does not depend on how it is cut. Every character has to belong to the
alphabet, and ampersands and bars, which are no marks alone, have to come in pairs; so a run of them
has to be of even length. The first place where one of these rules is broken is where scanning
stops.

* `isAdmitted`, `pairedChars`, `MaximalRun` — the rules, said without the scanner;
* `Offends` — a place that breaks one of them;
* `Settled` — the part of a text that was scanned broke none, and no pair is open behind it;
* `Scanner.tokens_settled` — scanning from a settled place on, `tokenize_language` — scanning a
  text.
-/

namespace ScriptGraph

open Scanner

/-! ## The rules -/

/-- The characters that mean something by themselves, alone or in pairs. -/
def markChars : List Char :=
  ['\x7b', '\x7d', '(', ')', '.', ',', ';', '*', '/', '%', '+', '-', '>', '<', '=', '!', '&', '|']

/-- Does a character belong to the alphabet of the language? -/
def isAdmitted (c : Char) : Bool :=
  Text.isWhiteSpace c || c.isAlphanum || c == '_' || markChars.contains c

/-- The characters that are no marks alone. -/
def pairedChars : List Char :=
  ['&', '|']

/-- They are characters of the alphabet. -/
theorem isAdmitted_of_mem_pairedChars {c : Char} (h : c ∈ pairedChars) : isAdmitted c = true := by
  simp only [pairedChars, List.mem_cons, List.not_mem_nil, or_false] at h
  rcases h with rfl | rfl <;> decide

/-- A character `length` times in a row, between parts of a text that do not prolong the run. -/
structure MaximalRun (cs : List Char) (c : Char) (before : List Char) (length : Nat)
    (behind : List Char) : Prop where
  split : cs = before ++ (List.replicate length c ++ behind)
  pos : 0 < length
  starts : before.getLast? ≠ some c
  stops : behind.head? ≠ some c

/-- `Offends cs before c` says that the character `c`, which stands behind `before` in the text
`cs`, breaks a rule. -/
inductive Offends (cs before : List Char) (c : Char) : Prop where
  /-- it is not in the alphabet -/
  | foreign {behind : List Char} (hs : cs = before ++ c :: behind) (hc : isAdmitted c = false)
  /-- it is the last one of a run that leaves it without a partner -/
  | single {start behind : List Char} {length : Nat} (hc : c ∈ pairedChars)
      (hr : MaximalRun cs c start length behind) (ho : ¬Even length)
      (hl : start ++ List.replicate length c = before ++ [c])

/-- A text in which nothing breaks a rule is one over the alphabet with runs of even length. -/
theorem forall_not_offends_iff (cs : List Char) :
    (∀ before c, ¬Offends cs before c) ↔
      (∀ c ∈ cs, isAdmitted c = true) ∧
        ∀ c ∈ pairedChars, ∀ before length behind,
          MaximalRun cs c before length behind → Even length := by
  constructor
  · intro h
    constructor
    · intro c hc
      obtain ⟨before, behind, hs⟩ := List.append_of_mem hc
      by_contra hn
      exact h before c (.foreign hs (Bool.eq_false_iff.mpr hn))
    · intro c hc before length behind hr
      by_contra ho
      obtain ⟨n, rfl⟩ : ∃ n, length = n + 1 := Nat.exists_eq_add_one.mpr hr.pos
      refine h (before ++ List.replicate n c) c (.single hc hr ho ?_)
      rw [List.replicate_succ', List.append_assoc]
  · rintro ⟨hall, heven⟩ before c (⟨rfl, hc⟩ | ⟨hc, hr, ho, -⟩)
    · rw [hall c (by simp)] at hc
      cases hc
    · exact ho (heven c hc _ _ _ hr)

/-- A character that breaks a rule stands in the text. -/
theorem Offends.split {cs before : List Char} {c : Char} (h : Offends cs before c) :
    ∃ behind, cs = before ++ c :: behind := by
  rcases h with ⟨hs, -⟩ | @⟨start, behind, length, -, hr, -, hl⟩
  · exact ⟨_, hs⟩
  · refine ⟨behind, ?_⟩
    rw [hr.split, ← List.append_assoc, hl, List.append_assoc]
    rfl

/-! ## Settled places -/

/-- How many times a character stands at the end of some characters. -/
def trail (c : Char) (cs : List Char) : Nat :=
  (cs.reverse.takeWhile (· == c)).length

theorem trail_snoc (c d : Char) (cs : List Char) :
    trail c (cs ++ [d]) = if d = c then trail c cs + 1 else 0 := by
  rw [trail, List.reverse_append, List.reverse_singleton, List.singleton_append,
    List.takeWhile_cons]
  by_cases h : d = c
  · simp [h, trail]
  · simp [h]

/-- The characters at the end are behind something that does not prolong their run. -/
theorem exists_trail (c : Char) (cs : List Char) :
    ∃ start, cs = start ++ List.replicate (trail c cs) c ∧ start.getLast? ≠ some c := by
  induction cs using List.reverseRecOn with
  | nil => exact ⟨[], rfl, nofun⟩
  | append_singleton cs d ih =>
    rw [trail_snoc]
    split
    · next h =>
      obtain ⟨start, hs, hl⟩ := ih
      refine ⟨start, ?_, hl⟩
      rw [List.replicate_succ', ← List.append_assoc, ← hs, h]
    · next h =>
      refine ⟨cs ++ [d], by simp, ?_⟩
      simpa using h

/-- A run is as long as the trail behind it. -/
theorem trail_replicate {c : Char} {start : List Char} (hl : start.getLast? ≠ some c) (n : Nat) :
    trail c (start ++ List.replicate n c) = n := by
  induction n with
  | zero =>
    rw [List.replicate_zero, List.append_nil]
    rcases List.eq_nil_or_concat' start with rfl | ⟨init, d, rfl⟩
    · rfl
    · rw [trail_snoc, if_neg (by simpa using hl)]
  | succ n ih =>
    rw [List.replicate_succ', ← List.append_assoc, trail_snoc, if_pos rfl, ih]

/-- `Settled cs before behind` says that a text is cut between `before` and `behind`, that nothing
before the cut breaks a rule, and that no ampersand or bar before it waits for a partner. -/
structure Settled (cs before behind : List Char) : Prop where
  split : cs = before ++ behind
  least : ∀ before' c, Offends cs before' c → before.length ≤ before'.length
  paired : ∀ c ∈ pairedChars, Even (trail c before)

namespace Settled

variable {cs before behind : List Char} {c : Char}

theorem start (cs : List Char) : Settled cs [] cs :=
  ⟨rfl, fun _ _ _ => Nat.zero_le _, fun _ _ => ⟨0, rfl⟩⟩

/-- If what stands at the cut breaks no rule, nothing does up to the next character. -/
theorem lt_of_not_offends (h : Settled cs before (c :: behind)) (hc : ¬Offends cs before c)
    {before' : List Char} {c' : Char} (ho : Offends cs before' c') :
    before.length < before'.length := by
  refine Nat.lt_of_le_of_ne (h.least before' c' ho) fun heq => hc ?_
  obtain ⟨behind', hs⟩ := ho.split
  obtain ⟨rfl, hcons⟩ := List.append_inj (h.split.symm.trans hs) heq
  obtain ⟨rfl, -⟩ := List.cons.inj hcons
  exact ho

/-- The cut moves behind a character of the alphabet that needs no partner. -/
theorem step (h : Settled cs before (c :: behind)) (ha : isAdmitted c = true)
    (hc : c ∉ pairedChars) : Settled cs (before ++ [c]) behind := by
  have hn : ¬Offends cs before c := by
    rintro (⟨-, hf⟩ | ⟨hp, -⟩)
    · rw [ha] at hf
      cases hf
    · exact hc hp
  refine ⟨?_, fun before' c' ho => ?_, fun d hd => ?_⟩
  · rw [h.split, List.append_assoc]
    rfl
  · have := h.lt_of_not_offends hn ho
    rw [List.length_append, List.length_singleton]
    omega
  · have hne : c ≠ d := by
      rintro rfl
      exact hc hd
    rw [trail_snoc, if_neg hne]
    exact ⟨0, rfl⟩

/-- The cut moves behind characters that need no partners. -/
theorem steps {taken : List Char} (h : Settled cs before (taken ++ behind))
    (ht : ∀ c ∈ taken, isAdmitted c = true ∧ c ∉ pairedChars) :
    Settled cs (before ++ taken) behind := by
  induction taken generalizing before with
  | nil => rwa [List.append_nil]
  | cons c taken ih =>
    obtain ⟨hc, ht⟩ := List.forall_mem_cons.mp ht
    have hnext := ih (h.step hc.1 hc.2) ht
    rwa [List.append_assoc, List.singleton_append] at hnext

/-- A character that needs a partner, and has one at its side, breaks no rule. -/
theorem not_offends_pair (h : Settled cs before (c :: c :: behind)) (hc : c ∈ pairedChars) :
    ¬Offends cs before c := by
  rintro (⟨-, hf⟩ | @⟨start, behind', length, -, hr, -, hl⟩)
  · rw [isAdmitted_of_mem_pairedChars hc] at hf
    cases hf
  · have hs : before ++ [c] ++ (c :: behind) = before ++ [c] ++ behind' := by
      rw [← hl, List.append_assoc start _ behind', ← hr.split, h.split, hl, List.append_assoc]
      rfl
    exact hr.stops (by rw [← List.append_cancel_left hs]; rfl)

/-- The cut moves behind a pair. -/
theorem pair (h : Settled cs before (c :: c :: behind)) (hc : c ∈ pairedChars) :
    Settled cs (before ++ [c, c]) behind := by
  have htrail : ∀ d ∈ pairedChars, Even (trail d (before ++ [c] ++ [c])) := by
    intro d hd
    rw [trail_snoc, trail_snoc]
    by_cases hcd : c = d
    · rw [if_pos hcd, if_pos hcd]
      exact (h.paired d hd).add even_two
    · rw [if_neg hcd]
      exact ⟨0, rfl⟩
  have happ : before ++ [c, c] = before ++ [c] ++ [c] := by rw [List.append_assoc]; rfl
  refine ⟨?_, fun before' c' ho => ?_, happ ▸ htrail⟩
  · rw [h.split, List.append_assoc]
    rfl
  · have hlt := h.lt_of_not_offends (h.not_offends_pair hc) ho
    rw [List.length_append, List.length_cons, List.length_singleton]
    refine Nat.succ_le_of_lt (Nat.lt_of_le_of_ne hlt fun heq => ?_)
    -- the second one of the pair would end a run of odd length
    have hsplit : cs = (before ++ [c]) ++ c :: behind := by
      rw [h.split, List.append_assoc]
      rfl
    have hlen : (before ++ [c]).length = before'.length := by
      rw [List.length_append, List.length_singleton]
      exact heq
    obtain ⟨behind', hs⟩ := ho.split
    obtain ⟨rfl, hcons⟩ := List.append_inj (hsplit.symm.trans hs) hlen
    obtain ⟨rfl, -⟩ := List.cons.inj hcons
    rcases ho with ⟨-, hf⟩ | ⟨-, hr, hodd, hl⟩
    · rw [isAdmitted_of_mem_pairedChars hc] at hf
      cases hf
    · have heven := htrail c hc
      rw [← hl, trail_replicate hr.starts] at heven
      exact hodd heven

/-- A character that needs a partner, and has none, breaks a rule. -/
theorem offends_single (h : Settled cs before (c :: behind)) (hc : c ∈ pairedChars)
    (hb : behind.head? ≠ some c) : Offends cs before c := by
  obtain ⟨start, hs, hl⟩ := exists_trail c before
  have hrun : start ++ List.replicate (trail c before + 1) c = before ++ [c] := by
    rw [List.replicate_succ', ← List.append_assoc, ← hs]
  refine .single hc ⟨?_, Nat.succ_pos _, hl, hb⟩ ?_ hrun
  · rw [← List.append_assoc, hrun, h.split, List.append_assoc]
    rfl
  · rw [Nat.even_add_one, not_not]
    exact h.paired c hc

/-- If the cut is behind everything, nothing breaks a rule. -/
theorem not_offends (h : Settled cs before []) (before' : List Char) (c : Char) :
    ¬Offends cs before' c := by
  intro ho
  have hle := h.least before' c ho
  obtain ⟨behind', hs⟩ := ho.split
  have hlen := congrArg List.length (h.split.symm.trans hs)
  simp only [List.append_nil, List.length_append, List.length_cons] at hlen
  omega

end Settled

/-! ## Tokens keep the rules -/

theorem isAdmitted_of_isWordChar {c : Char} (h : isWordChar c = true) : isAdmitted c = true := by
  simp only [isWordChar, Bool.or_eq_true] at h
  simp only [isAdmitted, Bool.or_eq_true]
  exact .inl (h.imp_left .inr)

theorem isAdmitted_of_isNumberChar {c : Char} (h : isNumberChar c = true) :
    isAdmitted c = true := by
  simp only [isNumberChar, Bool.or_eq_true, beq_iff_eq] at h
  rcases h with (h | rfl) | rfl
  · exact isAdmitted_of_isWordChar (by rw [isWordChar_eq, h, Bool.or_true])
  · decide
  · decide

theorem isAdmitted_of_isWhiteSpace {c : Char} (h : Text.isWhiteSpace c = true) :
    isAdmitted c = true := by
  simp [isAdmitted, h]

/-- Neither a word, a number nor white space has a character that needs a partner. -/
theorem eq_false_of_mem_pairedChars {c : Char} (h : c ∈ pairedChars) :
    isWordChar c = false ∧ isNumberChar c = false ∧ Text.isWhiteSpace c = false := by
  simp only [pairedChars, List.mem_cons, List.not_mem_nil, or_false] at h
  rcases h with rfl | rfl <;> decide

theorem isWordChar_of_isWord {cs : List Char} (h : isWord cs = true) :
    ∀ c ∈ cs, isWordChar c = true := by
  cases cs with
  | nil => nofun
  | cons c cs =>
    obtain ⟨hc, hcs⟩ := Bool.and_eq_true_iff.mp h
    exact List.forall_mem_cons.mpr
      ⟨by rw [isWordChar_eq, hc, Bool.true_or], List.all_eq_true.mp hcs⟩

theorem isNumberChar_of_isNumeral {cs : List Char} (h : isNumeral cs = true) :
    ∀ c ∈ cs, isNumberChar c = true := by
  cases cs with
  | nil => nofun
  | cons c cs =>
    obtain ⟨hc, hcs⟩ := Bool.and_eq_true_iff.mp h
    exact List.forall_mem_cons.mpr ⟨by rw [isNumberChar, hc]; rfl, List.all_eq_true.mp hcs⟩

/-- A token is either a pair or made of characters that need no partner. -/
theorem Token.text_admitted {t : Token} (h : t.isSpelled = true) :
    (∀ c ∈ t.text.toList, isAdmitted c = true ∧ c ∉ pairedChars) ∨
      ∃ c ∈ pairedChars, t.text.toList = [c, c] := by
  have hword : ∀ {s : String}, isWord s.toList = true →
      ∀ c ∈ s.toList, isAdmitted c = true ∧ c ∉ pairedChars := by
    intro s hs c hc
    have hw := isWordChar_of_isWord hs c hc
    refine ⟨isAdmitted_of_isWordChar hw, fun hp => ?_⟩
    rw [(eq_false_of_mem_pairedChars hp).1] at hw
    cases hw
  have hnumber : ∀ {s : String}, isNumeral s.toList = true →
      ∀ c ∈ s.toList, isAdmitted c = true ∧ c ∉ pairedChars := by
    intro s hs c hc
    have hn := isNumberChar_of_isNumeral hs c hc
    refine ⟨isAdmitted_of_isNumberChar hn, fun hp => ?_⟩
    rw [(eq_false_of_mem_pairedChars hp).2.1] at hn
    cases hn
  have hmarks : ∀ {cs : List Char},
      (cs.all fun c => isAdmitted c && !pairedChars.contains c) = true →
        ∀ c ∈ cs, isAdmitted c = true ∧ c ∉ pairedChars := by
    intro cs hcs
    simpa using hcs
  cases t with
  | ident s => exact .inl (hword (Bool.and_eq_true_iff.mp h).1)
  | qualifier s => exact .inl (hword h)
  | number s => exact .inl (hnumber h)
  | typeName s => exact .inl (hword (Bool.and_eq_true_iff.mp h).1)
  | andAnd => exact .inr ⟨'&', by decide, by decide⟩
  | orOr => exact .inr ⟨'|', by decide, by decide⟩
  | eof => cases h
  | lbrace depth | rbrace depth | lparen depth | rparen depth =>
    exact .inl (hmarks (by simp only [Token.text]; decide))
  | _ => exact .inl (hmarks (by decide))

/-- A character that starts no token breaks a rule, if no partner for it stands before it. -/
theorem Scanner.of_token?_eq_none {s : Scanner} {c : Char} {cs : List Char}
    (h : s.token? c cs = none) (hb : Text.isWhiteSpace c = false) :
    isAdmitted c = false ∨ c ∈ pairedChars ∧ cs.head? ≠ some c := by
  by_contra hn
  obtain ⟨ha, hp⟩ := not_or.mp hn
  have hd : ¬c.isDigit = true := fun hd => by
    rw [token?_of_isDigit s hd] at h
    cases h
  have hw : ¬isWordStart c = true := fun hw => by
    obtain ⟨t, ht, -⟩ := token?_of_isWordStart s hw cs
    rw [h] at ht
    cases ht
  have hmark : markChars.contains c = true := by
    have hword : isWordChar c = false := by simp [isWordChar_eq, hd, hw]
    rw [isWordChar, Bool.or_eq_false_iff] at hword
    simpa [isAdmitted, hb, hword] using ha
  have hnone : ∀ taken ∈ markTexts, ¬taken <+: c :: cs := by
    intro taken ht hpre
    obtain ⟨t, htoken, -⟩ := exists_token?_of_mark s ht hpre
    rw [h] at htoken
    cases htoken
  -- a mark is a character alone, or twice if it needs a partner
  have halone : ∀ d ∈ markChars, (pairedChars.contains d || markTexts.contains [d]) = true :=
    List.all_eq_true.mp (by decide)
  have htwice : ∀ d ∈ pairedChars, markTexts.contains [d, d] = true :=
    List.all_eq_true.mp (by decide)
  by_cases hc : c ∈ pairedChars
  · have hhead : cs.head? = some c := by
      by_contra hne
      exact hp ⟨hc, hne⟩
    obtain ⟨behind, rfl⟩ := List.head?_eq_some_iff.mp hhead
    exact hnone [c, c] (List.contains_iff_mem.mp (htwice c hc)) (List.prefix_append [c, c] behind)
  · have hsingle : [c] ∈ markTexts := by
      simpa [hc] using halone c (List.contains_iff_mem.mp hmark)
    exact hnone [c] hsingle (List.prefix_append [c] cs)

/-! ## Scanning -/

namespace Scanner

/-- A scanner at a settled place of a text. -/
structure SettledAt (source : String) (before : List Char) (s : Scanner) : Prop where
  settled : Settled source.toList before s.rest
  offset : s.offset = String.utf8Len before

namespace SettledAt

variable {source : String} {before : List Char} {s : Scanner}

theorem start (source : String) : SettledAt source [] (ofChars source.toList) :=
  ⟨.start _, rfl⟩

/-- The scanner goes on to the next settled place. -/
theorem drop (h : SettledAt source before s) {taken behind : List Char}
    (hr : s.rest = taken ++ behind) (hs : Settled source.toList (before ++ taken) behind) :
    SettledAt source (before ++ taken) (s.drop taken.length) := by
  have hat : s.At source := ⟨before, h.settled.split, h.offset⟩
  obtain ⟨-, hrest, hoffset⟩ := hat.drop hr
  refine ⟨hrest ▸ hs, ?_⟩
  rw [hoffset, h.offset, String.utf8Len_append]

/-- The place behind white space is settled. -/
theorem skipBlanks (h : SettledAt source before s) :
    ∃ before', SettledAt source before' s.skipBlanks ∧
      s.skipBlanks.rest.length ≤ s.rest.length ∧
      ∀ c ∈ s.skipBlanks.rest.head?, Text.isWhiteSpace c = false := by
  have hsplit : s.rest = s.rest.takeWhile Text.isWhiteSpace ++ s.rest.dropWhile Text.isWhiteSpace :=
    List.takeWhile_append_dropWhile.symm
  have hblank : ∀ c ∈ s.rest.takeWhile Text.isWhiteSpace, Text.isWhiteSpace c = true :=
    List.all_eq_true.mp List.all_takeWhile
  have hrest : s.skipBlanks.rest = s.rest.dropWhile Text.isWhiteSpace :=
    rest_skipBlanks hsplit hblank (head?_dropWhile s.rest)
  refine ⟨_, h.drop hsplit (Settled.steps (hsplit ▸ h.settled) fun c hc => ?_), ?_, ?_⟩
  · refine ⟨isAdmitted_of_isWhiteSpace (hblank c hc), fun hp => ?_⟩
    exact absurd (hblank c hc) (by simp [(eq_false_of_mem_pairedChars hp).2.2])
  · rw [hrest]
    exact (List.dropWhile_sublist _).length_le
  · rw [hrest]
    exact head?_dropWhile s.rest

/-- So is the place behind a token. -/
theorem token (h : SettledAt source before s) {c : Char} {cs : List Char} {t : Token}
    (hr : s.rest = c :: cs) (ht : s.token? c cs = some t) :
    ∃ before', SettledAt source before' ((s.drop t.text.length).count t) ∧
      ((s.drop t.text.length).count t).rest.length < s.rest.length := by
  obtain ⟨behind, hb, -⟩ := token?_split ht
  have hrest : s.rest = t.text.toList ++ behind := hr.trans hb
  have hs : Settled source.toList (before ++ t.text.toList) behind := by
    have h₀ := h.settled
    rw [hrest] at h₀
    rcases Token.text_admitted (isSpelled_token? ht) with hplain | ⟨d, hd, htext⟩
    · exact h₀.steps hplain
    · rw [htext] at h₀ ⊢
      exact h₀.pair hd
  have hdrop := h.drop hrest hs
  rw [String.length_toList] at hdrop
  refine ⟨_, ⟨?_, (offset_count t).trans hdrop.offset⟩, ?_⟩
  · rw [rest_count]
    exact hdrop.settled
  have hlen := congrArg List.length (hdrop.settled.split.symm.trans h.settled.split)
  have htext := one_le_length_text ht
  rw [rest_count]
  simp only [List.length_append] at hlen
  omega

end SettledAt

/-- What scanning the rest of a text finds: the first character that breaks a rule, if there is
one. -/
theorem tokens_settled {source : String} {before : List Char} {s : Scanner} {n : Nat}
    (h : SettledAt source before s) (hn : s.rest.length ≤ n) :
    match s.tokens n with
    | .ok _ => ∀ before' c, ¬Offends source.toList before' c
    | .error e => ∃ before' c behind, Settled source.toList before' (c :: behind) ∧
        Offends source.toList before' c ∧
        e = .unexpectedChar ⟨String.utf8Len before', String.utf8Len before' + c.utf8Size⟩ c := by
  induction n generalizing s before with
  | zero =>
    have hs := h.settled
    rw [List.length_eq_zero_iff.mp (Nat.le_zero.mp hn)] at hs
    exact hs.not_offends
  | succ n ih =>
    obtain ⟨before₁, h₁, hlen, hblank⟩ := h.skipBlanks
    rcases s.next_cases with ⟨hr, hnext⟩ | ⟨c, cs, hr, ht, hnext⟩ | ⟨c, cs, t, hr, ht, hnext⟩
    · simp only [tokens, hnext, if_true]
      exact (hr ▸ h₁.settled).not_offends
    · have hs := h₁.settled
      have hat : s.skipBlanks.At source := ⟨before₁, hs.split, h₁.offset⟩
      have hone : s.skipBlanks.rest = [c] ++ cs := hr
      obtain ⟨-, -, hoffset⟩ := hat.drop hone
      rw [hr] at hs hblank
      simp only [tokens, hnext]
      refine ⟨before₁, c, cs, hs, ?_, ?_⟩
      · rcases of_token?_eq_none ht (hblank c rfl) with ha | ⟨hp, hne⟩
        · exact .foreign hs.split ha
        · exact hs.offends_single hp hne
      · rw [List.length_singleton] at hoffset
        rw [hoffset, h₁.offset]
        simp
    · obtain ⟨before₂, h₂, hlt⟩ := h₁.token hr ht
      have hrest := ih h₂ (by omega)
      have hne : t ≠ .eof := by
        rintro rfl
        exact absurd (isSpelled_token? ht) (by decide)
      simp only [tokens, hnext, if_neg hne]
      rcases hts : tokens n _ with e | ls <;> rw [hts] at hrest
      · exact hrest
      · exact hrest

end Scanner

/-- What scanning a text finds. -/
theorem tokenize_settled (source : String) :
    match tokenize source with
    | .ok _ => ∀ before c, ¬Offends source.toList before c
    | .error e => ∃ before c behind, Settled source.toList before (c :: behind) ∧
        Offends source.toList before c ∧
        e = .unexpectedChar ⟨String.utf8Len before, String.utf8Len before + c.utf8Size⟩ c :=
  tokens_settled (.start source) (Nat.le_refl _)

/-- **The texts that have tokens.** A text can be scanned exactly if all its characters are in the
alphabet and all its runs of ampersands and of bars are of even length. Otherwise scanning stops at
the first character that is not in the alphabet or is the last one of a run of odd length, and says
which character that is and where it stands. -/
theorem tokenize_language (source : String) :
    ((∃ tokens, tokenize source = .ok tokens) ↔
      (∀ c ∈ source.toList, isAdmitted c = true) ∧
        ∀ c ∈ pairedChars, ∀ before length behind,
          MaximalRun source.toList c before length behind → Even length) ∧
    ∀ e, tokenize source = .error e ↔
      ∃ before c, Offends source.toList before c ∧
        (∀ before' c', Offends source.toList before' c' →
          String.utf8Len before ≤ String.utf8Len before') ∧
        e = .unexpectedChar ⟨String.utf8Len before, String.utf8Len before + c.utf8Size⟩ c := by
  rw [← forall_not_offends_iff]
  have h := tokenize_settled source
  rcases ht : tokenize source with e | tokens <;> rw [ht] at h
  · obtain ⟨before, c, behind, hs, ho, rfl⟩ := h
    have hleast : ∀ before' c', Offends source.toList before' c' → before <+: before' := by
      intro before' c' ho'
      obtain ⟨behind', hs'⟩ := ho'.split
      exact List.prefix_of_prefix_length_le ⟨_, hs.split.symm⟩ ⟨_, hs'.symm⟩
        (hs.least before' c' ho')
    refine ⟨⟨nofun, fun hn => absurd ho (hn before c)⟩, fun e => ⟨?_, ?_⟩⟩
    · intro he
      cases he
      exact ⟨before, c, ho,
        fun before' c' ho' => String.utf8Len_le_of_prefix (hleast before' c' ho'),
        rfl⟩
    · rintro ⟨before', c', ho', hmin, rfl⟩
      -- the least offence is the only one at its place
      obtain ⟨between, rfl⟩ := hleast before' c' ho'
      have hbetween : between = [] := by
        have := hmin before c ho
        rw [String.utf8Len_append] at this
        exact String.utf8Len_eq_zero.mp (by omega)
      subst hbetween
      obtain ⟨behind', hs'⟩ := ho'.split
      have hcons := List.append_inj_right (hs.split.symm.trans hs') (by simp)
      obtain ⟨rfl, -⟩ := List.cons.inj hcons
      rw [List.append_nil]
  · refine ⟨⟨fun _ => h, fun _ => ⟨tokens, rfl⟩⟩, fun e => ⟨nofun, ?_⟩⟩
    rintro ⟨before, c, ho, -⟩
    exact absurd ho (h before c)

-- the third ampersand has no partner; what stands behind it is not looked at
example : tokenize "a&&&b €" = .error (.unexpectedChar ⟨3, 4⟩ '&') := by decide +kernel

end ScriptGraph
