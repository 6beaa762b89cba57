import ScriptGraph.Proofs.Token.Nesting

/-!
# Tokens written down

A token is written as its text. It is *spelled* if the text is one that a token of its kind can have: an
identifier is a word that is no keyword and no name of a type, a qualifier is any word, a number starts
with a digit. `Laid ts cs` says that the text `cs` consists of the tokens `ts`: white space may stand
before each of them, and must where two tokens would run into one another. Only between a qualifier and
its dot there is none.

* `tokenize_laid` — scanning gives such tokens back;
* `isSpelled_of_tokenize` — and no other tokens are ever scanned;
* `Legible.laid` — tokens that are spelled, with a dot behind every qualifier, have such a text: the one
  with a blank behind each token but a qualifier.
-/

namespace ScriptGraph

open Scanner

/-! ## Characters -/

namespace Scanner

/-- Where white space stands among the characters. -/
theorem toNat_of_isWhiteSpace {c : Char} (h : Text.isWhiteSpace c = true) :
    c.toNat ≤ 32 ∨ 133 ≤ c.toNat := by
  simp only [Text.isWhiteSpace, Bool.or_eq_true, Bool.and_eq_true, decide_eq_true_eq,
    beq_iff_eq] at h
  omega

theorem toNat_of_isDigit {c : Char} (h : c.isDigit = true) : 48 ≤ c.toNat ∧ c.toNat ≤ 57 := by
  simp only [Char.isDigit, Bool.and_eq_true, decide_eq_true_eq, UInt32.le_iff_toNat_le,
    ge_iff_le] at h
  exact h

theorem toNat_of_isWordStart {c : Char} (h : isWordStart c = true) :
    65 ≤ c.toNat ∧ c.toNat ≤ 122 := by
  have hupper : c.isUpper = decide (c.val ≥ 'A'.val ∧ c.val ≤ 'Z'.val) := rfl
  have hlower : c.isLower = (decide (c.val ≥ 'a'.val) && decide (c.val ≤ 'z'.val)) := rfl
  have halpha : c.isAlpha = (c.isUpper || c.isLower) := rfl
  simp only [isWordStart, halpha, hupper, hlower, Bool.or_eq_true, Bool.and_eq_true,
    decide_eq_true_eq, beq_iff_eq, UInt32.le_iff_toNat_le, ge_iff_le] at h
  change ((65 ≤ c.toNat ∧ c.toNat ≤ 90) ∨ (97 ≤ c.toNat ∧ c.toNat ≤ 122)) ∨ c = '_' at h
  rcases h with h | rfl
  · omega
  · decide

theorem isDigit_of_isWordStart {c : Char} (h : isWordStart c = true) : c.isDigit = false :=
  Bool.eq_false_iff.mpr fun hd => by
    have := toNat_of_isDigit hd
    have := toNat_of_isWordStart h
    omega

/-- Behind its first character a word may have digits. -/
theorem isWordChar_eq (c : Char) : isWordChar c = (isWordStart c || c.isDigit) := by
  simp only [isWordChar, isWordStart, Char.isAlphanum]
  cases c.isAlpha <;> cases c.isDigit <;> cases c == '_' <;> rfl

theorem isWordChar_of_isWhiteSpace {c : Char} (h : Text.isWhiteSpace c = true) :
    isWordChar c = false := by
  have hb := toNat_of_isWhiteSpace h
  rw [isWordChar_eq, Bool.or_eq_false_iff]
  constructor <;> refine Bool.eq_false_iff.mpr fun hc => ?_
  · have := toNat_of_isWordStart hc
    omega
  · have := toNat_of_isDigit hc
    omega

theorem isNumberChar_of_isWhiteSpace {c : Char} (h : Text.isWhiteSpace c = true) :
    isNumberChar c = false := by
  have hb := toNat_of_isWhiteSpace h
  refine Bool.eq_false_iff.mpr fun hc => ?_
  simp only [isNumberChar, Bool.or_eq_true, beq_iff_eq] at hc
  rcases hc with (hc | rfl) | rfl
  · have := toNat_of_isDigit hc
    omega
  · revert hb
    decide
  · revert hb
    decide

/-- A run of characters ends where the next character does not belong to it. -/
theorem span_append {p : Char → Bool} {xs cs : List Char} (hx : ∀ c ∈ xs, p c = true)
    (hc : ∀ c ∈ cs.head?, p c = false) :
    (xs ++ cs).takeWhile p = xs ∧ (xs ++ cs).dropWhile p = cs := by
  rw [List.takeWhile_append_of_pos hx, List.dropWhile_append_of_pos hx]
  cases cs with
  | nil => simp
  | cons c cs => simp [hc c (by simp)]

end Scanner

/-! ## Spelling -/

/-- May some characters make up a word? -/
def isWord : List Char → Bool
  | [] => false
  | c :: cs => isWordStart c && cs.all isWordChar

/-- May some characters make up a number literal? -/
def isNumeral : List Char → Bool
  | [] => false
  | c :: cs => c.isDigit && cs.all isNumberChar

/-- Is the text of a token one that tokens of its kind can have? -/
def Token.isSpelled : Token → Bool
  | .ident s => isWord s.toList && Token.ofWord s == .ident s
  | .qualifier s => isWord s.toList
  | .number s => isNumeral s.toList
  | .typeName s => isWord s.toList && Token.ofWord s == .typeName s
  | .eof => false
  | _ => true

theorem Token.isSpelled_flat (t : Token) : t.flat.isSpelled = t.isSpelled := by
  cases t <;> rfl

/-- Does a character directly behind a token make another token of it? -/
def Token.runsInto : Token → Char → Bool
  | .number _, c => isNumberChar c
  | .ident _, c | .typeName _, c | .keyDef, c | .keyIf, c | .keyElse, c | .keyReturn, c
  | .keyPublic, c | .keyNew, c => isWordChar c || c == '.'
  | .star, c => c == '*'
  | .greater, c | .less, c | .assign, c => c == '='
  | _, _ => false

/-- May a token stand directly before some characters? -/
def Token.Precedes : Token → List Char → Prop
  | .qualifier _, cs => cs.head? = some '.'
  | t, cs => ∀ c ∈ cs.head?, t.runsInto c = false

/-- `Laid ts cs` says that `cs` is a text of the tokens `ts`, with white space between them where it is
needed and perhaps elsewhere, but none between a qualifier and its dot. -/
inductive Laid : List Token → List Char → Prop where
  /-- no token -/
  | nil {gap : List Char} (hg : ∀ c ∈ gap, Text.isWhiteSpace c = true) : Laid [] gap
  /-- a token before others -/
  | cons {t : Token} {ts : List Token} {gap cs : List Char}
      (hg : ∀ c ∈ gap, Text.isWhiteSpace c = true) (ht : t.Precedes cs) (hs : Laid ts cs) :
      Laid (t :: ts) (gap ++ (t.text.toList ++ cs))

/-! ## Scanning -/

namespace Scanner

/-- A word before something that neither prolongs it nor makes it a qualifier. -/
theorem token?_word (s : Scanner) {c : Char} {xs cs : List Char} (hw : isWord (c :: xs) = true)
    (hc : ∀ c ∈ cs.head?, (isWordChar c || c == '.') = false) :
    s.token? c (xs ++ cs) = some (.ofWord (String.ofList (c :: xs))) := by
  obtain ⟨hstart, hrest⟩ := Bool.and_eq_true_iff.mp hw
  have hdigit := isDigit_of_isWordStart hstart
  obtain ⟨ht, hd⟩ := span_append (List.all_eq_true.mp hrest)
    fun c hmem => (Bool.or_eq_false_iff.mp (hc c hmem)).1
  simp only [token?, hdigit, hstart, ht, hd, Bool.false_eq_true, if_false, if_true]
  split
  · exact absurd (hc '.' rfl) (by decide)
  · rfl

/-- A word before a dot. -/
theorem token?_qualifier (s : Scanner) {c : Char} {xs cs : List Char} (hw : isWord (c :: xs) = true)
    (hc : cs.head? = some '.') :
    s.token? c (xs ++ cs) = some (.qualifier (String.ofList (c :: xs))) := by
  obtain ⟨hstart, hrest⟩ := Bool.and_eq_true_iff.mp hw
  have hdigit := isDigit_of_isWordStart hstart
  have hdot : ∀ c ∈ cs.head?, isWordChar c = false := fun c hmem => by
    rw [hc] at hmem
    cases hmem
    decide
  obtain ⟨ht, hd⟩ := span_append (List.all_eq_true.mp hrest) hdot
  obtain ⟨cs, rfl⟩ := List.head?_eq_some_iff.mp hc
  simp only [token?, hdigit, hstart, ht, hd, Bool.false_eq_true, if_false, if_true]

/-- A number before something that does not prolong it. -/
theorem token?_numeral (s : Scanner) {c : Char} {xs cs : List Char} (hn : isNumeral (c :: xs) = true)
    (hc : ∀ c ∈ cs.head?, isNumberChar c = false) :
    s.token? c (xs ++ cs) = some (.number (String.ofList (c :: xs))) := by
  obtain ⟨hstart, hrest⟩ := Bool.and_eq_true_iff.mp hn
  obtain ⟨ht, -⟩ := span_append (List.all_eq_true.mp hrest) hc
  simp only [token?, hstart, ht, if_true]

/-- Where the token `t` is written before `cs`, a token with its text is scanned, of any depth. -/
def Scans (t : Token) (cs : List Char) : Prop :=
  ∃ c xs, t.text.toList = c :: xs ∧ Text.isWhiteSpace c = false ∧
    ∀ s : Scanner, ∃ t', s.token? c (xs ++ cs) = some t' ∧ t'.flat = t.flat ∧ t'.text = t.text

theorem isWhiteSpace_of_isWord {c : Char} {xs : List Char} (h : isWord (c :: xs) = true) :
    Text.isWhiteSpace c = false :=
  Bool.eq_false_iff.mpr fun hb => by
    have := toNat_of_isWhiteSpace hb
    have := toNat_of_isWordStart (Bool.and_eq_true_iff.mp h).1
    omega

theorem isWhiteSpace_of_isNumeral {c : Char} {xs : List Char} (h : isNumeral (c :: xs) = true) :
    Text.isWhiteSpace c = false :=
  Bool.eq_false_iff.mpr fun hb => by
    have := toNat_of_isWhiteSpace hb
    have := toNat_of_isDigit (Bool.and_eq_true_iff.mp h).1
    omega

theorem scans_word {t : Token} {cs : List Char} (hw : isWord t.text.toList = true)
    (ht : Token.ofWord t.text = t) (hc : ∀ c ∈ cs.head?, (isWordChar c || c == '.') = false) :
    Scans t cs := by
  rcases hx : t.text.toList with _ | ⟨c, xs⟩ <;> rw [hx] at hw
  · cases hw
  · refine ⟨c, xs, hx, isWhiteSpace_of_isWord hw, fun s => ⟨t, ?_, rfl, rfl⟩⟩
    rw [token?_word s hw hc, ← hx, String.ofList_toList, ht]

theorem scans_qualifier {text : String} {cs : List Char} (hw : isWord text.toList = true)
    (hc : cs.head? = some '.') : Scans (.qualifier text) cs := by
  rcases hx : text.toList with _ | ⟨c, xs⟩ <;> rw [hx] at hw
  · cases hw
  · refine ⟨c, xs, hx, isWhiteSpace_of_isWord hw, fun s => ⟨.qualifier text, ?_, rfl, rfl⟩⟩
    rw [token?_qualifier s hw hc, ← hx, String.ofList_toList]

theorem scans_number {text : String} {cs : List Char} (hn : isNumeral text.toList = true)
    (hc : ∀ c ∈ cs.head?, isNumberChar c = false) : Scans (.number text) cs := by
  rcases hx : text.toList with _ | ⟨c, xs⟩ <;> rw [hx] at hn
  · cases hn
  · refine ⟨c, xs, hx, isWhiteSpace_of_isNumeral hn, fun s => ⟨.number text, ?_, rfl, rfl⟩⟩
    rw [token?_numeral s hn hc, ← hx, String.ofList_toList]

/-- A mark of one character that a second one could change. -/
theorem scans_mark {t : Token} {c d : Char} {cs : List Char}
    (hm : (t, c, d) ∈ [(.star, '*', '*'), (.greater, '>', '='), (.less, '<', '='), (.assign, '=', '=')])
    (hc : ∀ c ∈ cs.head?, (c == d) = false) : Scans t cs := by
  refine ⟨c, [], ?_, ?_, fun s => ⟨t, ?_, rfl, rfl⟩⟩ <;>
    simp only [List.mem_cons, Prod.mk.injEq, List.not_mem_nil, or_false] at hm <;>
    rcases hm with ⟨rfl, rfl, rfl⟩ | ⟨rfl, rfl, rfl⟩ | ⟨rfl, rfl, rfl⟩ | ⟨rfl, rfl, rfl⟩
  iterate 8 decide
  all_goals
    rcases cs with _ | ⟨c, cs⟩
    · rfl
    · have hne := ne_of_beq_false (hc c rfl)
      show mark? (_ :: c :: cs) = _
      simp [mark?, hne]

theorem scans_spelled {t : Token} {cs : List Char} (ht : t.isSpelled = true) (hc : t.Precedes cs) :
    Scans t cs := by
  cases t with
  | ident text =>
    obtain ⟨hw, ho⟩ := Bool.and_eq_true_iff.mp ht
    exact scans_word hw (eq_of_beq ho) hc
  | qualifier text => exact scans_qualifier ht hc
  | number text => exact scans_number ht hc
  | typeName text =>
    obtain ⟨hw, ho⟩ := Bool.and_eq_true_iff.mp ht
    exact scans_word hw (eq_of_beq ho) hc
  | keyDef => exact scans_word (by decide) (by decide) hc
  | keyIf => exact scans_word (by decide) (by decide) hc
  | keyElse => exact scans_word (by decide) (by decide) hc
  | keyReturn => exact scans_word (by decide) (by decide) hc
  | keyPublic => exact scans_word (by decide) (by decide) hc
  | keyNew => exact scans_word (by decide) (by decide) hc
  | star => exact scans_mark (c := '*') (by simp) hc
  | greater => exact scans_mark (c := '>') (by simp) hc
  | less => exact scans_mark (c := '<') (by simp) hc
  | assign => exact scans_mark (c := '=') (by simp) hc
  | lbrace d => exact ⟨'\x7b', [], by simp [Token.text], by decide, fun s => ⟨_, rfl, rfl, rfl⟩⟩
  | rbrace d => exact ⟨'\x7d', [], by simp [Token.text], by decide, fun s => ⟨_, rfl, rfl, rfl⟩⟩
  | lparen d => exact ⟨'(', [], by simp [Token.text], by decide, fun s => ⟨_, rfl, rfl, rfl⟩⟩
  | rparen d => exact ⟨')', [], by simp [Token.text], by decide, fun s => ⟨_, rfl, rfl, rfl⟩⟩
  | eof => cases ht
  | _ => exact ⟨_, _, rfl, by decide, fun s => ⟨_, rfl, rfl, rfl⟩⟩

/-- White space is skipped as far as it goes. -/
theorem rest_skipBlanks {s : Scanner} {gap cs : List Char} (hr : s.rest = gap ++ cs)
    (hg : ∀ c ∈ gap, Text.isWhiteSpace c = true) (hc : ∀ c ∈ cs.head?, Text.isWhiteSpace c = false) :
    s.skipBlanks.rest = cs := by
  simp only [skipBlanks, drop, hr, (span_append hg hc).1, List.drop_left]

@[simp] theorem rest_count (s : Scanner) (t : Token) : (s.count t).rest = s.rest := by
  cases t <;> rfl

/-- One step over a token that is written before `cs`. -/
theorem next_spelled {t : Token} {gap cs : List Char} (ht : t.isSpelled = true) (hc : t.Precedes cs)
    (hg : ∀ c ∈ gap, Text.isWhiteSpace c = true) {s : Scanner}
    (hr : s.rest = gap ++ (t.text.toList ++ cs)) :
    ∃ l s', s.next = (.ok l, s') ∧ l.token.flat = t.flat ∧ s'.rest = cs := by
  obtain ⟨c, xs, hx, hb, hscan⟩ := scans_spelled ht hc
  obtain ⟨t', ht', hflat, htext⟩ := hscan s.skipBlanks
  have hrest : s.skipBlanks.rest = c :: (xs ++ cs) := by
    refine rest_skipBlanks (by rw [hr, hx]; rfl) hg fun c' hc' => ?_
    cases hc'
    exact hb
  have hnext : s.next =
      (.ok ⟨t', ⟨s.skipBlanks.offset, (s.skipBlanks.drop t'.text.length).offset⟩⟩,
        (s.skipBlanks.drop t'.text.length).count t') := by
    simp only [next, hrest, ht']
  refine ⟨_, _, hnext, hflat, ?_⟩
  rw [rest_count, drop, hrest, htext, ← String.length_toList, hx]
  exact List.drop_left

/-- Scanning a text of some tokens gives these back, with the depths of their brackets. -/
theorem tokens_laid {ts : List Token} {cs : List Char} (h : Laid ts cs)
    (ht : ∀ t ∈ ts, t.isSpelled = true) {n : Nat} {s : Scanner} (hr : s.rest = cs)
    (hn : ts.length ≤ n) :
    ∃ ls e, s.tokens n = .ok (ls ++ [e]) ∧ e.token = .eof ∧
      ls.map (fun l => l.token.flat) = ts.map Token.flat := by
  induction h generalizing n s with
  | @nil gap hg =>
    -- Without a step left the end mark is added; a step more finds it behind the white space.
    cases n with
    | zero => exact ⟨[], _, rfl, rfl, rfl⟩
    | succ n =>
      have hrest : s.skipBlanks.rest = [] :=
        rest_skipBlanks (by rw [hr, List.append_nil]) hg nofun
      exact ⟨[], _, by simp only [tokens, next, hrest, if_true]; rfl, rfl, rfl⟩
  | @cons t ts gap cs hg hp hs ih =>
    obtain ⟨ht, hts⟩ := List.forall_mem_cons.mp ht
    obtain ⟨n, rfl⟩ : ∃ m, n = m + 1 := ⟨n - 1, by simp at hn; omega⟩
    obtain ⟨l, s', hnext, hflat, hrest⟩ := next_spelled ht hp hg hr
    obtain ⟨ls, e, htokens, he, hls⟩ := ih hts hrest (by simpa using hn)
    -- A spelled token is not the end mark, so scanning goes on behind it.
    have hl : l.token ≠ .eof := fun hl => by
      rw [hl] at hflat
      cases t <;> first | (cases ht; done) | cases hflat
    exact ⟨l :: ls, e, by simp [tokens, hnext, hl, htokens, Except.map], he, by simp [hflat, hls]⟩

/-- A text has at least as many characters as tokens. -/
theorem length_le_of_laid {ts : List Token} {cs : List Char} (h : Laid ts cs)
    (ht : ∀ t ∈ ts, t.isSpelled = true) : ts.length ≤ cs.length := by
  induction h with
  | nil => simp
  | cons hg hp hs ih =>
    obtain ⟨ht, hts⟩ := List.forall_mem_cons.mp ht
    obtain ⟨c, xs, hx, -⟩ := scans_spelled ht hp
    have := ih hts
    simp only [List.length_cons, List.length_append, hx]
    omega

end Scanner

/-- Scanning a text of some tokens gives these back, with the depths of their brackets. -/
theorem tokenize_laid {ts : List Token} {text : String} (h : Laid ts text.toList)
    (ht : ∀ t ∈ ts, t.isSpelled = true) :
    ∃ ls e, tokenize text = .ok (ls ++ [e]) ∧ e.token = .eof ∧
      ls.map (fun l => l.token.flat) = ts.map Token.flat :=
  tokens_laid h ht rfl (length_le_of_laid h ht)

/-! ## Scanned tokens -/

namespace Scanner

theorem isSpelled_ofWord {word : String} (h : isWord word.toList = true) :
    (Token.ofWord word).isSpelled = true := by
  fun_cases Token.ofWord word <;> simp_all [Token.isSpelled, Token.ofWord]

theorem isSpelled_mark? {cs : List Char} {t : Token} (h : mark? cs = some t) : t.isSpelled = true := by
  unfold mark? at h
  split at h <;> cases h <;> rfl

theorem isSpelled_token? {s : Scanner} {c : Char} {cs : List Char} {t : Token}
    (h : s.token? c cs = some t) : t.isSpelled = true := by
  unfold token? at h
  split at h
  · next hd =>
    cases h
    simp [Token.isSpelled, isNumeral, hd, List.all_takeWhile]
  split at h
  · next hw =>
    have hword : isWord (String.ofList (c :: cs.takeWhile isWordChar)).toList = true := by
      simp [isWord, hw, List.all_takeWhile]
    dsimp only at h
    split at h <;> cases h
    · exact hword
    · exact isSpelled_ofWord hword
  repeat' split at h
  all_goals first
    | exact isSpelled_mark? h
    | cases h; rfl

theorem isSpelled_next {s s' : Scanner} {l : Lexeme} (h : s.next = (.ok l, s')) (hl : l.token ≠ .eof) :
    l.token.isSpelled = true := by
  rw [next] at h
  dsimp only at h
  split at h
  · cases h
    exact absurd rfl hl
  · split at h
    · next ht =>
      cases h
      exact isSpelled_token? ht
    · cases h

theorem isSpelled_tokens {n : Nat} {s : Scanner} {ls : List Lexeme} (h : s.tokens n = .ok ls) :
    ∀ l ∈ ls, l.token ≠ .eof → l.token.isSpelled = true := by
  induction n generalizing s ls with
  | zero =>
    cases h
    exact List.forall_mem_singleton.mpr (absurd rfl)
  | succ n ih =>
    rw [tokens] at h
    split at h
    · cases h
    · next l s' hn =>
      split at h
      · next he =>
        cases h
        exact List.forall_mem_singleton.mpr (absurd he)
      · rcases hr : s'.tokens n with e | ls'
        · rw [hr] at h
          cases h
        · rw [hr] at h
          cases h
          exact List.forall_mem_cons.mpr ⟨isSpelled_next hn, ih hr⟩

end Scanner

/-- A scanned token, but for the end mark, is spelled. -/
theorem isSpelled_of_tokenize {source : String} {tokens : List Lexeme} (h : tokenize source = .ok tokens) :
    ∀ l ∈ tokens, l.token ≠ .eof → l.token.isSpelled = true :=
  Scanner.isSpelled_tokens h

/-! ## Legible tokens -/

theorem Token.runsInto_of_isWhiteSpace (t : Token) {c : Char} (h : Text.isWhiteSpace c = true) :
    t.runsInto c = false := by
  have hne : ∀ d : Char, Text.isWhiteSpace d = false → (c == d) = false := by
    intro d hd
    refine beq_false_of_ne fun hcd => ?_
    rw [hcd, hd] at h
    cases h
  cases t <;> simp only [Token.runsInto, Bool.or_eq_false_iff] <;>
    first
      | exact isNumberChar_of_isWhiteSpace h
      | exact ⟨isWordChar_of_isWhiteSpace h, hne _ (by decide)⟩
      | exact hne _ (by decide)

/-- Is a token spelled, and need no dot follow it? -/
def Token.standsAlone : Token → Bool
  | .qualifier _ => false
  | t => t.isSpelled

theorem Token.isSpelled_of_standsAlone (t : Token) (h : t.standsAlone = true) : t.isSpelled = true := by
  cases t <;> first | cases h; done | exact h

/-- A token that stands alone may stand before white space. -/
theorem Token.precedes_of_standsAlone (t : Token) (h : t.standsAlone = true) {c : Char}
    {cs : List Char} (hc : Text.isWhiteSpace c = true) : t.Precedes (c :: cs) := by
  have hstop : ∀ c' ∈ (c :: cs).head?, t.runsInto c' = false := fun c' hmem => by
    cases hmem
    exact t.runsInto_of_isWhiteSpace hc
  cases t <;> first | cases h; done | exact hstop

/-- Tokens that can be written down: each is spelled, and a dot stands behind every qualifier. -/
inductive Legible : List Token → Prop where
  /-- no token -/
  | nil : Legible []
  /-- a token other than a qualifier before others -/
  | cons {t : Token} {ts : List Token} (ht : t.standsAlone = true) (h : Legible ts) : Legible (t :: ts)
  /-- a qualifier with its dot before other tokens -/
  | qualified {receiver : String} {ts : List Token} (hr : isWord receiver.toList = true)
      (h : Legible ts) : Legible (.qualifier receiver :: .dot :: ts)

/-- Tokens with a blank behind each, but none between a qualifier and its dot. -/
def spaced : List Token → List Char
  | [] => []
  | .qualifier receiver :: ts => receiver.toList ++ spaced ts
  | t :: ts => t.text.toList ++ ' ' :: spaced ts

theorem spaced_cons {t : Token} (h : t.standsAlone = true) (ts : List Token) :
    spaced (t :: ts) = t.text.toList ++ ' ' :: spaced ts := by
  cases t <;> first | cases h; done | rfl

/-- A token with no white space before it. -/
theorem Laid.tight {t : Token} {ts : List Token} {cs : List Char} (h : Laid ts cs)
    (ht : t.Precedes cs) : Laid (t :: ts) (t.text.toList ++ cs) :=
  have hg : ∀ c ∈ [], Text.isWhiteSpace c = true := nofun
  .cons hg ht h

/-- A blank before a text changes nothing. -/
theorem Laid.blank {ts : List Token} {cs : List Char} (h : Laid ts cs) : Laid ts (' ' :: cs) := by
  have hblank : Text.isWhiteSpace ' ' = true := by decide
  cases h with
  | nil hg => exact .nil (List.forall_mem_cons.mpr ⟨hblank, hg⟩)
  | cons hg hp hs => exact .cons (List.forall_mem_cons.mpr ⟨hblank, hg⟩) hp hs

namespace Legible

variable {t : Token} {ts us : List Token}

theorem single (ht : t.standsAlone = true) : Legible [t] :=
  .cons ht .nil

theorem append (ht : Legible ts) (hu : Legible us) : Legible (ts ++ us) := by
  induction ht with
  | nil => exact hu
  | cons ht _ ih => exact .cons ht ih
  | qualified hr _ ih => exact .qualified hr ih

theorem isSpelled (h : Legible ts) : ∀ t ∈ ts, t.isSpelled = true := by
  induction h with
  | nil => exact nofun
  | cons ht _ ih => exact List.forall_mem_cons.mpr ⟨Token.isSpelled_of_standsAlone _ ht, ih⟩
  | qualified hr _ ih => exact List.forall_mem_cons.mpr ⟨hr, List.forall_mem_cons.mpr ⟨rfl, ih⟩⟩

/-- Legible tokens have a text. -/
theorem laid (h : Legible ts) : Laid ts (spaced ts) := by
  induction h with
  | nil => exact .nil nofun
  | cons ht _ ih =>
    rw [spaced_cons ht]
    exact ih.blank.tight (Token.precedes_of_standsAlone _ ht (by decide))
  | @qualified receiver ts hr _ ih =>
    have hdot : Laid (.dot :: ts) ('.' :: ' ' :: spaced ts) := ih.blank.tight fun _ _ => rfl
    exact hdot.tight rfl

end Legible

end ScriptGraph
