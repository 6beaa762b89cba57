import Mathlib.Data.String.Basic
import ScriptGraph.Proofs.Token.Spelling

/-!
# Scanning cuts a text into longest tokens

A scanner counts bytes, and what it yields are places in the text. Here these places are taken at
their word: the text is cut there, and the pieces are compared with what the scanner said they are.

* `Span.slice`, `Span.Cuts` — the text at a place, and places that start and end between characters;
* `isTokenText` — the texts that tokens can have, said without the scanner;
* `Lexeme.Munched`, `Refused` — a token that could not be longer, a character that starts no token;
* `Segmented` — white space, a piece, white space, a piece, and so on to the end of the text;
* `Scanner.At.next` — what one step does, `steps_segmented` — what any number of them do.
-/

namespace ScriptGraph

open Scanner

/-! ## Places in a text -/

/-- The text at a place. -/
def Span.slice (source : String) (span : Span) : String :=
  String.Pos.Raw.extract source ⟨span.start⟩ ⟨span.stop⟩

/-- A place that is not empty, and starts and ends between characters of a text. -/
structure Span.Cuts (source : String) (span : Span) : Prop where
  start : String.Pos.Raw.Valid source ⟨span.start⟩
  stop : String.Pos.Raw.Valid source ⟨span.stop⟩
  lt : span.start < span.stop

/-- There is nothing but white space at a place. -/
def Span.Blank (source : String) (span : Span) : Prop :=
  ∀ c ∈ (span.slice source).toList, Text.isWhiteSpace c = true

/-- The characters of a text from a byte on. -/
def charsFrom (source : String) (offset : Nat) : List Char :=
  (Span.slice source ⟨offset, source.utf8ByteSize⟩).toList

/-! ## Pieces of a text -/

/-- The result of a step at the end of a text. -/
def endOf (source : String) : Except SourceError Lexeme :=
  .ok ⟨.eof, ⟨source.utf8ByteSize, source.utf8ByteSize⟩⟩

/-- The texts of brackets, operators and punctuation marks. -/
def markTexts : List (List Char) :=
  [['\x7b'], ['\x7d'], ['('], [')'], ['.'], [','], [';'], ['*', '*'], ['>', '='], ['<', '='],
    ['=', '='], ['&', '&'], ['|', '|'], ['*'], ['/'], ['%'], ['+'], ['-'], ['>'], ['<'], ['='], ['!']]

/-- Can some characters be the text of a token? -/
def isTokenText (cs : List Char) : Bool :=
  isWord cs || isNumeral cs || markTexts.contains cs

/-- A token at its place in a text that could not be longer. -/
structure Lexeme.Munched (source : String) (l : Lexeme) : Prop where
  /-- the place is one in the text -/
  cuts : l.span.Cuts source
  /-- the token is written there -/
  text : l.span.slice source = l.token.text
  /-- it is a token of its kind -/
  spelled : l.token.isSpelled = true
  /-- no character behind it could belong to it; a word is a qualifier exactly if a dot follows -/
  stops : l.token.Precedes (charsFrom source l.span.stop)
  /-- and no longer text from there on is one of a token, of whatever kind -/
  longest : ∀ stop, l.span.stop < stop → String.Pos.Raw.Valid source ⟨stop⟩ →
    isTokenText (Span.slice source ⟨l.span.start, stop⟩).toList = false

/-- A single character of a text with which no token starts. -/
structure Refused (source : String) (span : Span) (c : Char) : Prop where
  cuts : span.Cuts source
  text : span.slice source = String.singleton c
  /-- no text from there on is one of a token -/
  none : ∀ stop, String.Pos.Raw.Valid source ⟨stop⟩ →
    isTokenText (Span.slice source ⟨span.start, stop⟩).toList = false

/-- `Segmented source offset results` says that the text from the byte `offset` on consists of the
tokens and of the errors in `results`, with white space before each and behind the last. -/
inductive Segmented (source : String) : Nat → List (Except SourceError Lexeme) → Prop where
  /-- nothing more -/
  | nil {offset : Nat} (hb : Span.Blank source ⟨offset, source.utf8ByteSize⟩) :
      Segmented source offset []
  /-- a token -/
  | token {offset : Nat} {l : Lexeme} {results : List (Except SourceError Lexeme)}
      (hle : offset ≤ l.span.start) (hb : Span.Blank source ⟨offset, l.span.start⟩)
      (hl : l.Munched source) (hs : Segmented source l.span.stop results) :
      Segmented source offset (.ok l :: results)
  /-- a character that starts no token -/
  | refused {offset : Nat} {span : Span} {c : Char} {results : List (Except SourceError Lexeme)}
      (hle : offset ≤ span.start) (hb : Span.Blank source ⟨offset, span.start⟩)
      (hc : Refused source span c) (hs : Segmented source span.stop results) :
      Segmented source offset (.error (.unexpectedChar span c) :: results)

/-! ## Bytes and characters -/

theorem Scanner.byteCount_eq (cs : List Char) : byteCount cs = String.utf8Len cs := by
  have hsum : ∀ (cs : List Char) (size : Nat),
      cs.foldl (fun size c => size + c.utf8Size) size = size + String.utf8Len cs := by
    intro cs
    induction cs with
    | nil => intro size; rfl
    | cons c cs ih =>
      intro size
      rw [List.foldl_cons, ih, String.utf8Len_cons]
      omega
  rw [byteCount, hsum, Nat.zero_add]

section

variable {source : String} {before middle behind : List Char}

/-- What stands between two points of a text. -/
theorem slice_eq (h : source.toList = before ++ (middle ++ behind)) :
    Span.slice source ⟨String.utf8Len before, String.utf8Len before + String.utf8Len middle⟩ =
      String.ofList middle := by
  have hs : source = String.ofList (before ++ middle ++ behind) := by
    rw [List.append_assoc, ← h, String.ofList_toList]
  rw [Span.slice, hs]
  exact String.extract_of_valid before middle behind

theorem valid_of_append (h : source.toList = before ++ behind) :
    String.Pos.Raw.Valid source ⟨String.utf8Len before⟩ :=
  .intro ⟨before, behind, h.symm, rfl⟩

/-- What stands behind a point of a text. -/
theorem charsFrom_eq (h : source.toList = before ++ behind) :
    charsFrom source (String.utf8Len before) = behind := by
  have hsize : source.utf8ByteSize = String.utf8Len before + String.utf8Len behind := by
    rw [← String.utf8Len_toList, h, String.utf8Len_append]
  have h' : source.toList = before ++ (behind ++ []) := by rw [List.append_nil, h]
  rw [charsFrom, hsize, slice_eq h', String.toList_ofList]

/-- A later point of a text is behind some of the characters that are still to come. -/
theorem exists_prefix_of_valid (h : source.toList = before ++ behind) {stop : Nat}
    (hlt : String.utf8Len before < stop) (hv : String.Pos.Raw.Valid source ⟨stop⟩) :
    ∃ taken, taken <+: behind ∧ stop = String.utf8Len before + String.utf8Len taken ∧
      (Span.slice source ⟨String.utf8Len before, stop⟩).toList = taken := by
  obtain ⟨cs, cs', hs, hp⟩ := hv.exists
  have hstop : stop = String.utf8Len cs := congrArg String.Pos.Raw.byteIdx hp
  have hchars : cs ++ cs' = before ++ behind := by
    rw [← h, ← hs, String.toList_ofList]
  rcases List.append_eq_append_iff.mp hchars with ⟨rest, hb, -⟩ | ⟨taken, hc, hb⟩
  · -- the point would come before the one we are at
    have hlen : String.utf8Len before = String.utf8Len cs + String.utf8Len rest := by
      rw [hb, String.utf8Len_append]
    omega
  · have hlen : stop = String.utf8Len before + String.utf8Len taken := by
      rw [hstop, hc, String.utf8Len_append]
    refine ⟨taken, ⟨cs', hb.symm⟩, hlen, ?_⟩
    rw [hlen, slice_eq (h.trans (by rw [hb])), String.toList_ofList]

end

/-! ## The longest token -/

theorem Token.text_ofWord (word : String) : (Token.ofWord word).text = word := by
  fun_cases Token.ofWord word <;> simp_all [Token.text]

namespace Scanner

variable {s : Scanner} {c : Char} {cs : List Char} {t : Token}

/-- A run of characters ends before a character that does not belong to it. -/
theorem head?_dropWhile {p : Char → Bool} (cs : List Char) :
    ∀ c ∈ (cs.dropWhile p).head?, p c = false := by
  intro c hc
  have h := List.head?_dropWhile_not p cs
  rw [Option.mem_def.mp hc] at h
  exact h

/-- A mark is written in front of what follows, and takes a second character where it can. -/
theorem mark?_split (h : mark? cs = some t) :
    ∃ behind, cs = t.text.toList ++ behind ∧ t.Precedes behind := by
  have hne : ∀ {d : Char} {behind : List Char}, (∀ tail, behind = d :: tail → False) →
      ∀ c ∈ behind.head?, (c == d) = false := by
    intro d behind hd c hc
    refine beq_false_of_ne fun hcd => ?_
    obtain ⟨tail, rfl⟩ := List.head?_eq_some_iff.mp hc
    exact hd tail (by rw [hcd])
  unfold mark? at h
  split at h <;> cases h <;> refine ⟨_, rfl, ?_⟩
  all_goals first
    | exact fun _ _ => rfl
    | exact hne ‹_›

theorem token?_of_isDigit (s : Scanner) (h : c.isDigit = true) (cs : List Char) :
    s.token? c cs = some (.number (String.ofList (c :: cs.takeWhile isNumberChar))) := by
  rw [token?, if_pos h]

/-- A word is taken as far as it goes, whatever it is. -/
theorem token?_of_isWordStart (s : Scanner) (h : isWordStart c = true) (cs : List Char) :
    ∃ t, s.token? c cs = some t ∧ t.text = String.ofList (c :: cs.takeWhile isWordChar) ∧
      t.Precedes (cs.dropWhile isWordChar) := by
  have hdigit : ¬c.isDigit = true := by simp [isDigit_of_isWordStart h]
  rw [token?, if_neg hdigit, if_pos h]
  dsimp only
  split
  · next behind hb => exact ⟨_, rfl, rfl, by rw [hb]; rfl⟩
  · next hdot =>
    refine ⟨_, rfl, Token.text_ofWord _, ?_⟩
    have hstop : ∀ c ∈ (cs.dropWhile isWordChar).head?, (isWordChar c || c == '.') = false := by
      intro d hd
      rw [head?_dropWhile cs d hd, Bool.false_or]
      refine beq_false_of_ne fun h => ?_
      obtain ⟨tail, ht⟩ := List.head?_eq_some_iff.mp hd
      exact hdot tail (by rw [ht, h])
    fun_cases Token.ofWord _ <;> exact hstop

/-- A token is written in front of what follows, and nothing that follows belongs to it. -/
theorem token?_split (h : s.token? c cs = some t) :
    ∃ behind, c :: cs = t.text.toList ++ behind ∧ t.Precedes behind := by
  by_cases hd : c.isDigit = true
  · rw [token?_of_isDigit s hd] at h
    cases h
    refine ⟨cs.dropWhile isNumberChar, ?_, head?_dropWhile cs⟩
    simp [Token.text]
  by_cases hw : isWordStart c = true
  · obtain ⟨t', ht, htext, hp⟩ := token?_of_isWordStart s hw cs
    cases ht.symm.trans h
    refine ⟨_, ?_, hp⟩
    simp [htext]
  rw [token?, if_neg hd, if_neg hw] at h
  repeat' split at h
  all_goals first
    | exact mark?_split h
    | cases h; subst c; exact ⟨cs, by simp [Token.text], fun _ _ => rfl⟩

/-- A run that starts a text is no longer than the longest one. -/
theorem length_le_takeWhile {p : Char → Bool} {xs cs : List Char} (hx : ∀ c ∈ xs, p c = true)
    (h : xs <+: cs) : xs.length ≤ (cs.takeWhile p).length := by
  obtain ⟨behind, rfl⟩ := h
  rw [List.takeWhile_append_of_pos hx, List.length_append]
  exact Nat.le_add_right _ _

/-- These characters are marks, alone or with a second one. -/
theorem exists_mark? (cs : List Char)
    (hc : c ∈ ['*', '/', '%', '+', '-', '>', '<', '=', '!', '.', ',', ';']) :
    ∃ t, mark? (c :: cs) = some t := by
  rw [← Option.isSome_iff_exists]
  unfold mark?
  split
  all_goals first
    | rfl
    | exfalso; simp_all

/-- A token has at least one character. -/
theorem one_le_length_text (h : s.token? c cs = some t) : 1 ≤ t.text.toList.length := by
  obtain ⟨behind, -, hp⟩ := token?_split h
  obtain ⟨c', xs, hx, -⟩ := scans_spelled (isSpelled_token? h) hp
  rw [hx]
  exact Nat.succ_le_succ (Nat.zero_le _)

/-- A mark is the start of a token. -/
theorem exists_token?_of_mark (s : Scanner) {taken : List Char} (hm : taken ∈ markTexts)
    (hp : taken <+: c :: cs) :
    ∃ t, s.token? c cs = some t ∧ taken.length ≤ t.text.toList.length := by
  obtain ⟨behind, hb⟩ := hp
  have hmark : ∀ {c : Char}, s.token? c behind = mark? (c :: behind) →
      c ∈ ['*', '/', '%', '+', '-', '>', '<', '=', '!', '.', ',', ';'] →
      ∃ t, s.token? c behind = some t ∧ 1 ≤ t.text.toList.length := by
    intro c hs hc
    obtain ⟨t, ht⟩ := exists_mark? behind hc
    exact ⟨t, hs.trans ht, one_le_length_text (hs.trans ht)⟩
  simp only [markTexts, List.mem_cons, List.not_mem_nil, or_false] at hm
  rcases hm with rfl | rfl | rfl | rfl | rfl | rfl | rfl | rfl | rfl | rfl | rfl | rfl | rfl | rfl |
    rfl | rfl | rfl | rfl | rfl | rfl | rfl | rfl <;> cases hb
  all_goals first
    | exact hmark rfl (by decide)
    | exact ⟨_, rfl, by simp [Token.text]⟩

/-- What starts with the text of a token starts with a token that is no shorter. -/
theorem exists_token?_of_isTokenText (s : Scanner) {taken : List Char}
    (ht : isTokenText taken = true) (hp : taken <+: c :: cs) :
    ∃ t, s.token? c cs = some t ∧ taken.length ≤ t.text.toList.length := by
  simp only [isTokenText, Bool.or_eq_true, List.contains_iff_mem] at ht
  rcases ht with (hw | hn) | hm
  · rcases taken with _ | ⟨d, xs⟩
    · cases hw
    · obtain ⟨rfl, hx⟩ := List.cons_prefix_cons.mp hp
      obtain ⟨hstart, hrest⟩ := Bool.and_eq_true_iff.mp hw
      obtain ⟨t, ht, htext, -⟩ := token?_of_isWordStart s hstart cs
      refine ⟨t, ht, ?_⟩
      rw [htext, String.toList_ofList, List.length_cons, List.length_cons]
      exact Nat.succ_le_succ (length_le_takeWhile (List.all_eq_true.mp hrest) hx)
  · rcases taken with _ | ⟨d, xs⟩
    · cases hn
    · obtain ⟨rfl, hx⟩ := List.cons_prefix_cons.mp hp
      obtain ⟨hstart, hrest⟩ := Bool.and_eq_true_iff.mp hn
      refine ⟨_, token?_of_isDigit s hstart cs, ?_⟩
      rw [Token.text, String.toList_ofList, List.length_cons, List.length_cons]
      exact Nat.succ_le_succ (length_le_takeWhile (List.all_eq_true.mp hrest) hx)
  · exact exists_token?_of_mark s hm hp

/-! ## Steps -/

/-- A scanner that has come to a point of a text. -/
def At (source : String) (s : Scanner) : Prop :=
  ∃ before, source.toList = before ++ s.rest ∧ s.offset = String.utf8Len before

variable {source : String}

theorem at_ofChars (source : String) : (ofChars source.toList).At source :=
  ⟨[], rfl, rfl⟩

/-- The scanner goes on by some characters. -/
theorem At.drop (h : s.At source) {taken behind : List Char} (hr : s.rest = taken ++ behind) :
    (s.drop taken.length).At source ∧ (s.drop taken.length).rest = behind ∧
      (s.drop taken.length).offset = s.offset + String.utf8Len taken := by
  obtain ⟨before, hs, ho⟩ := h
  have hrest : (s.drop taken.length).rest = behind := by rw [Scanner.drop, hr, List.drop_left]
  have hoffset : (s.drop taken.length).offset = s.offset + String.utf8Len taken := by
    rw [Scanner.drop, hr, List.take_left, byteCount_eq]
  refine ⟨⟨before ++ taken, ?_, ?_⟩, hrest, hoffset⟩
  · rw [hs, hr, hrest, List.append_assoc]
  · rw [hoffset, ho, String.utf8Len_append]

theorem at_count (t : Token) : (s.count t).At source ↔ s.At source := by
  cases t <;> rfl

theorem offset_count (t : Token) : (s.count t).offset = s.offset := by
  cases t <;> rfl

/-- What a scanner passes over, read at its place. -/
theorem At.slice (h : s.At source) {taken behind : List Char} (hr : s.rest = taken ++ behind) :
    Span.slice source ⟨s.offset, s.offset + String.utf8Len taken⟩ = String.ofList taken := by
  obtain ⟨before, hs, ho⟩ := h
  rw [ho, slice_eq (hs.trans (by rw [hr]))]

theorem At.chars (h : s.At source) : charsFrom source s.offset = s.rest := by
  obtain ⟨before, hs, ho⟩ := h
  rw [ho, charsFrom_eq hs]

theorem At.valid (h : s.At source) : String.Pos.Raw.Valid source ⟨s.offset⟩ := by
  obtain ⟨before, hs, ho⟩ := h
  rw [ho]
  exact valid_of_append hs

/-- A scanner that has nothing left is at the end of the text. -/
theorem At.offset_eq (h : s.At source) (hr : s.rest = []) : s.offset = source.utf8ByteSize := by
  obtain ⟨before, hs, ho⟩ := h
  rw [ho, ← String.utf8Len_toList, hs, hr, List.append_nil]

/-- White space is passed over as far as it goes. -/
theorem At.skipBlanks (h : s.At source) :
    s.skipBlanks.At source ∧ s.offset ≤ s.skipBlanks.offset ∧
      Span.Blank source ⟨s.offset, s.skipBlanks.offset⟩ ∧
      s.skipBlanks.rest.length ≤ s.rest.length := by
  have hsplit : s.rest = s.rest.takeWhile Text.isWhiteSpace ++ s.rest.dropWhile Text.isWhiteSpace :=
    List.takeWhile_append_dropWhile.symm
  obtain ⟨hat, hrest, hoffset⟩ := h.drop hsplit
  refine ⟨hat, hoffset ▸ Nat.le_add_right _ _, ?_, ?_⟩
  · intro c hc
    rw [Scanner.skipBlanks, hoffset, h.slice hsplit, String.toList_ofList] at hc
    exact List.all_eq_true.mp List.all_takeWhile c hc
  · rw [Scanner.skipBlanks, hrest]
    exact (List.dropWhile_sublist _).length_le

/-- No text from a point on that is one of a token goes beyond the token that is scanned there. -/
theorem At.isTokenText_slice (h : s.At source) (hr : s.rest = c :: cs) {stop : Nat}
    (hv : String.Pos.Raw.Valid source ⟨stop⟩)
    (hlong : ∀ t, s.token? c cs = some t → s.offset + String.utf8Len t.text.toList < stop) :
    isTokenText (Span.slice source ⟨s.offset, stop⟩).toList = false := by
  obtain ⟨before, hs, ho⟩ := h
  refine Bool.eq_false_iff.mpr fun htext => ?_
  by_cases hlt : s.offset < stop
  · rw [ho] at hlt htext
    obtain ⟨taken, hp, hstop, hslice⟩ := exists_prefix_of_valid hs hlt hv
    rw [hslice] at htext
    rw [hr] at hp
    obtain ⟨t, ht, hlen⟩ := exists_token?_of_isTokenText s htext hp
    obtain ⟨behind, hb, -⟩ := token?_split ht
    -- of two starts of one text the shorter one takes no more bytes
    have hle : taken <+: t.text.toList := by
      rw [hb] at hp
      exact List.prefix_of_prefix_length_le hp (List.prefix_append _ _) hlen
    have hbytes := String.utf8Len_le_of_prefix hle
    have := hlong t ht
    omega
  · have hempty : Span.slice source ⟨s.offset, stop⟩ = "" := by
      rw [Span.slice, String.Pos.Raw.extract, if_pos (Nat.le_of_not_lt hlt)]
    rw [hempty] at htext
    exact absurd htext (by decide)

/-- The scanner behind a token. -/
theorem At.drop_text (h : s.At source) (hr : s.rest = c :: cs) (ht : s.token? c cs = some t) :
    ∃ behind, s.rest = t.text.toList ++ behind ∧ t.Precedes behind ∧
      (s.drop t.text.length).At source ∧ (s.drop t.text.length).rest = behind ∧
      (s.drop t.text.length).offset = s.offset + String.utf8Len t.text.toList := by
  obtain ⟨behind, hb, hp⟩ := token?_split ht
  obtain ⟨hat, hrest, hoffset⟩ := h.drop (hr.trans hb)
  rw [String.length_toList] at hat hrest hoffset
  exact ⟨behind, hr.trans hb, hp, hat, hrest, hoffset⟩

/-- A scanned token is the longest one. -/
theorem At.munched (h : s.At source) (hr : s.rest = c :: cs) (ht : s.token? c cs = some t) :
    Lexeme.Munched source ⟨t, ⟨s.offset, (s.drop t.text.length).offset⟩⟩ := by
  obtain ⟨behind, hb, hp, hat, hrest, hoffset⟩ := h.drop_text hr ht
  have hpos : 0 < String.utf8Len t.text.toList :=
    Nat.pos_of_ne_zero fun h0 => by
      have := one_le_length_text ht
      rw [String.utf8Len_eq_zero.mp h0] at this
      cases this
  refine ⟨⟨h.valid, hat.valid, ?_⟩, ?_, isSpelled_token? ht, ?_, fun stop hstop hv => ?_⟩
  · simp only [hoffset]
    omega
  · rw [hoffset, h.slice hb, String.ofList_toList]
  · rw [hat.chars, hrest]
    exact hp
  · refine h.isTokenText_slice hr hv fun t' ht' => ?_
    cases ht.symm.trans ht'
    simpa only [hoffset] using hstop

/-- A character that is refused starts no token. -/
theorem At.refused (h : s.At source) (hr : s.rest = c :: cs) (ht : s.token? c cs = none) :
    Refused source ⟨s.offset, (s.drop 1).offset⟩ c := by
  have hone : s.rest = [c] ++ cs := hr
  obtain ⟨hat, -, hoffset⟩ := h.drop hone
  have hpos : 0 < String.utf8Len [c] := by simpa using c.utf8Size_pos
  refine ⟨⟨h.valid, hat.valid, ?_⟩, ?_, fun stop hv => ?_⟩
  · simp only [List.length_singleton] at hoffset ⊢
    omega
  · simp only [List.length_singleton] at hoffset
    rw [hoffset, h.slice hone, String.singleton_eq_ofList]
  · refine h.isTokenText_slice hr hv fun t ht' => ?_
    rw [ht] at ht'
    cases ht'

/-- A step passes over white space; then it finds the end, a token or a character that starts
none. -/
theorem next_cases (s : Scanner) :
    (s.skipBlanks.rest = [] ∧ s.next =
      (.ok ⟨.eof, ⟨s.skipBlanks.offset, s.skipBlanks.offset⟩⟩, s.skipBlanks)) ∨
    (∃ c cs, s.skipBlanks.rest = c :: cs ∧ s.skipBlanks.token? c cs = none ∧ s.next =
      (.error (.unexpectedChar ⟨s.skipBlanks.offset, (s.skipBlanks.drop 1).offset⟩ c),
        s.skipBlanks.drop 1)) ∨
    (∃ c cs t, s.skipBlanks.rest = c :: cs ∧ s.skipBlanks.token? c cs = some t ∧ s.next =
      (.ok ⟨t, ⟨s.skipBlanks.offset, (s.skipBlanks.drop t.text.length).offset⟩⟩,
        (s.skipBlanks.drop t.text.length).count t)) := by
  rcases hr : s.skipBlanks.rest with _ | ⟨c, cs⟩
  · exact .inl ⟨rfl, by simp only [Scanner.next, hr]⟩
  · rcases ht : s.skipBlanks.token? c cs with _ | t
    · exact .inr (.inl ⟨c, cs, rfl, ht, by simp only [Scanner.next, hr, ht]⟩)
    · exact .inr (.inr ⟨c, cs, t, rfl, ht, by simp only [Scanner.next, hr, ht]⟩)

/-- **One step.** At the end of a text there is only white space left; before it, a token or an error
is scanned, and what is scanned next goes on from there. -/
theorem At.next (h : s.At source) :
    (s.next.1 = endOf source ∧ Span.Blank source ⟨s.offset, source.utf8ByteSize⟩ ∧
      s.next.2.At source ∧ s.next.2.rest = []) ∨
    (s.next.2.At source ∧ s.next.2.rest.length < s.rest.length ∧
      ∀ results, Segmented source s.next.2.offset results →
        Segmented source s.offset (s.next.1 :: results)) := by
  obtain ⟨hat, hle, hblank, hlen⟩ := h.skipBlanks
  rcases s.next_cases with ⟨hr, hnext⟩ | ⟨c, cs, hr, ht, hnext⟩ | ⟨c, cs, t, hr, ht, hnext⟩
  · rw [hat.offset_eq hr] at hnext hblank
    rw [hnext]
    exact .inl ⟨rfl, hblank, hat, hr⟩
  · have hone : s.skipBlanks.rest = [c] ++ cs := hr
    obtain ⟨hat', hrest, -⟩ := hat.drop hone
    rw [List.length_singleton] at hat' hrest
    rw [hr, List.length_cons] at hlen
    rw [hnext]
    refine .inr ⟨hat', ?_, fun results hs => .refused hle hblank (hat.refused hr ht) hs⟩
    rw [hrest]
    omega
  · obtain ⟨behind, hb, -, hat', hrest, -⟩ := hat.drop_text hr ht
    rw [hnext]
    refine .inr ⟨(at_count t).mpr hat', ?_, fun results hs => ?_⟩
    · have htext := one_le_length_text ht
      rw [hb, List.length_append] at hlen
      simp only [rest_count, hrest]
      omega
    · simp only [offset_count] at hs
      exact .token hle hblank (hat.munched hr ht) hs

/-- Behind the end of a text every step finds the end again. -/
theorem At.steps_end (h : s.At source) (hr : s.rest = []) (n : Nat) :
    s.steps n = List.replicate n (endOf source) := by
  induction n generalizing s with
  | zero => rfl
  | succ n ih =>
    rcases h.next with ⟨hn, -, hat, hrest⟩ | ⟨-, hlt, -⟩
    · rw [steps, hn, ih hat hrest, List.replicate_succ]
    · rw [hr] at hlt
      cases hlt

/-- Any number of steps cut the text into pieces, and then find the end. -/
theorem At.steps (h : s.At source) :
    ∃ results, results.length ≤ s.rest.length ∧ Segmented source s.offset results ∧
      ∀ n, s.steps n = results.take n ++ List.replicate (n - results.length) (endOf source) := by
  induction hm : s.rest.length using Nat.strong_induction_on generalizing s with
  | _ m ih =>
    subst hm
    rcases h.next with ⟨hn, hblank, hat, hrest⟩ | ⟨hat, hlt, hs⟩
    · refine ⟨[], Nat.zero_le _, .nil hblank, fun n => ?_⟩
      cases n with
      | zero => rfl
      | succ n => simp [Scanner.steps, hn, hat.steps_end hrest, List.replicate_succ]
    · obtain ⟨results, hlen, hseg, hsteps⟩ := ih _ hlt hat rfl
      refine ⟨s.next.1 :: results, ?_, hs results hseg, fun n => ?_⟩
      · rw [List.length_cons]
        omega
      · cases n with
        | zero => simp [Scanner.steps]
        | succ n => simp [Scanner.steps, hsteps]

end Scanner

/-- **Scanning is cutting into longest pieces.** For every text there are finitely many tokens and
errors, at most one for each character, such that any number of steps yield these, as far as the steps
go, and then the end of the text again and again. They cut the text from its first byte to its last,
with nothing but white space between them; each token is written where it is said to be and could not be
longer, and each error is one character with which no token starts. -/
theorem steps_segmented (source : String) :
    ∃ results, results.length ≤ source.length ∧ Segmented source 0 results ∧
      ∀ n, (Scanner.ofChars source.toList).steps n =
        results.take n ++ List.replicate (n - results.length) (endOf source) := by
  have h := (at_ofChars source).steps
  rwa [← String.length_toList]

end ScriptGraph
