import ScriptGraph.Proofs.Binary32.Proper
import ScriptGraph.Proofs.Parsing.RoundTrip
import ScriptGraph.Proofs.Token.Alphabet

/-!
# Expressions in brackets can be read back

The bracketed text of an expression shows all that the expression has but its places. It is an atom,
or a head with parts between parentheses; no atom has a blank or a parenthesis, so a text divides
into atoms in one way only. The head then tells what kind of expression it is: only that of a call
has a dot, and the others are different words and marks. An atom is a number if it starts with a
digit and a name if it starts with a letter; and the text of a number that can be written as a
literal determines it.

* `Bracketed`, `Bracketed.chars_append_inj` — forms in brackets, and their unique reading;
* `Expr.bracketed`, `Expr.toList_text` — the form whose text an expression has;
* `Bracketed.expr?`, `Expr.expr?_bracketed` — the expression that a form shows;
* `Expr.text_injective` — expressions that are read and have the same text differ in places only.
-/

namespace ScriptGraph

open Scanner

/-! ## Forms in brackets -/

/-- A form in brackets: an atom, or a head before parts. -/
inductive Bracketed : Type where
  /-- some characters -/
  | atom (cs : List Char)
  /-- a head with parts, in parentheses -/
  | node (head : List Char) (parts : List Bracketed)

/-- May a character stand in an atom or a head? -/
def isAtomChar (c : Char) : Bool :=
  c != ' ' && c != '(' && c != ')'

namespace Bracketed

mutual

/-- The text of a form. -/
def chars : Bracketed → List Char
  | .atom cs => cs
  | .node head parts => '(' :: head ++ partsChars parts

/-- The texts of parts, each behind a blank, and the closing parenthesis. -/
def partsChars : List Bracketed → List Char
  | [] => [')']
  | part :: parts => ' ' :: part.chars ++ partsChars parts

end

mutual

/-- Are atoms and heads free of blanks and parentheses, and atoms not empty? -/
def IsPlain : Bracketed → Prop
  | .atom cs => cs ≠ [] ∧ cs.all isAtomChar = true
  | .node head parts => head.all isAtomChar = true ∧ PartsPlain parts

/-- Are those of all parts? -/
def PartsPlain : List Bracketed → Prop
  | [] => True
  | part :: parts => part.IsPlain ∧ PartsPlain parts

end

/-- An atom ends where its characters end. -/
theorem span_inj {xs ys rest rest' : List Char} (hx : xs.all isAtomChar = true)
    (hy : ys.all isAtomChar = true) (hr : ∀ c ∈ rest.head?, isAtomChar c = false)
    (hr' : ∀ c ∈ rest'.head?, isAtomChar c = false) (h : xs ++ rest = ys ++ rest') :
    xs = ys ∧ rest = rest' := by
  obtain ⟨htake, hdrop⟩ := span_append (List.all_eq_true.mp hx) hr
  obtain ⟨htake', hdrop'⟩ := span_append (List.all_eq_true.mp hy) hr'
  rw [h] at htake hdrop
  exact ⟨htake.symm.trans htake', hdrop.symm.trans hdrop'⟩

/-- Behind a part no atom goes on. -/
theorem head?_partsChars (parts : List Bracketed) (rest : List Char) :
    ∀ c ∈ (partsChars parts ++ rest).head?, isAtomChar c = false := by
  cases parts <;> rintro c ⟨⟩ <;> decide

/-- An atom does not start like a form in parentheses. -/
theorem atom_ne_node {cs rest tail : List Char} (hne : cs ≠ [])
    (hcs : cs.all isAtomChar = true) : cs ++ rest ≠ '(' :: tail := by
  cases cs with
  | nil => exact absurd rfl hne
  | cons c cs =>
    intro h
    obtain rfl := (List.cons.inj h).1
    cases hcs

mutual

/-- **Unique reading.** A text starts with one form only, if no atom goes on behind it. -/
theorem chars_append_inj : ∀ {f g : Bracketed} {rest rest' : List Char}, f.IsPlain → g.IsPlain →
    (∀ c ∈ rest.head?, isAtomChar c = false) → (∀ c ∈ rest'.head?, isAtomChar c = false) →
      f.chars ++ rest = g.chars ++ rest' → f = g ∧ rest = rest'
  | .atom cs, .atom cs', rest, rest', hf, hg, hr, hr', h => by
    obtain ⟨rfl, hrest⟩ := span_inj hf.2 hg.2 hr hr' h
    exact ⟨rfl, hrest⟩
  | .atom cs, .node head parts, rest, rest', hf, hg, hr, hr', h =>
    absurd h (atom_ne_node hf.1 hf.2)
  | .node head parts, .atom cs, rest, rest', hf, hg, hr, hr', h =>
    absurd h.symm (atom_ne_node hg.1 hg.2)
  | .node head parts, .node head' parts', rest, rest', hf, hg, hr, hr', h => by
    simp only [chars, List.cons_append, List.append_assoc, List.cons.injEq, true_and] at h
    obtain ⟨rfl, hparts⟩ :=
      span_inj hf.1 hg.1 (head?_partsChars parts rest) (head?_partsChars parts' rest') h
    obtain ⟨rfl, hrest⟩ := partsChars_append_inj hf.2 hg.2 hparts
    exact ⟨rfl, hrest⟩

/-- The closing parenthesis shows where parts end, whatever stands behind it. -/
theorem partsChars_append_inj : ∀ {fs gs : List Bracketed} {rest rest' : List Char},
    PartsPlain fs → PartsPlain gs → partsChars fs ++ rest = partsChars gs ++ rest' →
      fs = gs ∧ rest = rest'
  | [], [], rest, rest', hf, hg, h => ⟨rfl, (List.cons.inj h).2⟩
  | [], g :: gs, rest, rest', hf, hg, h => absurd (List.cons.inj h).1 (by decide)
  | f :: fs, [], rest, rest', hf, hg, h => absurd (List.cons.inj h).1 (by decide)
  | f :: fs, g :: gs, rest, rest', hf, hg, h => by
    simp only [partsChars, List.cons_append, List.append_assoc, List.cons.injEq, true_and] at h
    obtain ⟨rfl, hparts⟩ :=
      chars_append_inj hf.1 hg.1 (head?_partsChars fs rest) (head?_partsChars gs rest') h
    obtain ⟨rfl, hrest⟩ := partsChars_append_inj hf.2 hg.2 hparts
    exact ⟨rfl, hrest⟩

end

/-- A form is determined by its text. -/
theorem chars_inj {f g : Bracketed} (hf : f.IsPlain) (hg : g.IsPlain) (h : f.chars = g.chars) :
    f = g := by
  have hend : ∀ c ∈ ([] : List Char).head?, isAtomChar c = false := nofun
  exact (chars_append_inj hf hg hend hend (by rw [h])).1

end Bracketed

/-! ## The forms of expressions -/

namespace Expr

mutual

/-- The form of an expression. -/
def bracketed : Expr → Bracketed
  | .number value => .atom value.text.toList
  | .var name => .atom name.text.toList
  | .neg inner => .node "neg".toList [inner.bracketed]
  | .not inner => .node "!".toList [inner.bracketed]
  | .binary op left right => .node op.symbol.toList [left.bracketed, right.bracketed]
  | .call receiver member args =>
    .node (receiver.text.toList ++ '.' :: member.text.toList) (argsBracketed args)
  | .construct type args => .node "new".toList (.atom type.text.toList :: argsBracketed args)

/-- The forms of some arguments. -/
def argsBracketed : List Expr → List Bracketed
  | [] => []
  | arg :: args => arg.bracketed :: argsBracketed args

end

mutual

/-- The text of an expression is that of its form. -/
theorem toList_text : ∀ e : Expr, e.text.toList = e.bracketed.chars
  | .number value => rfl
  | .var name => rfl
  | .neg inner => by
    simp [text, bracketed, Bracketed.chars, Bracketed.partsChars, toList_text inner]
  | .not inner => by
    simp [text, bracketed, Bracketed.chars, Bracketed.partsChars, toList_text inner]
  | .binary op left right => by
    simp [text, bracketed, Bracketed.chars, Bracketed.partsChars, toList_text left,
      toList_text right]
  | .call receiver member args => by
    simp [text, bracketed, Bracketed.chars, toList_argsText args]
  | .construct type args => by
    simp [text, bracketed, Bracketed.chars, Bracketed.partsChars, toList_argsText args]

/-- So are the texts of arguments before a closing parenthesis. -/
theorem toList_argsText : ∀ args : List Expr,
    (argsText args).toList ++ [')'] = Bracketed.partsChars (argsBracketed args)
  | [] => rfl
  | arg :: args => by
    simp [argsText, argsBracketed, Bracketed.partsChars, toList_text arg, toList_argsText args]

end

mutual

/-- Are all numbers of an expression finite? -/
def isFinite : Expr → Bool
  | .number value => value.IsFinite
  | .var _ => true
  | .neg inner => inner.isFinite
  | .not inner => inner.isFinite
  | .binary _ left right => left.isFinite && right.isFinite
  | .call _ _ args => argsFinite args
  | .construct _ args => argsFinite args

/-- Are those of some arguments? -/
def argsFinite : List Expr → Bool
  | [] => true
  | arg :: args => arg.isFinite && argsFinite args

end

end Expr

/-! ## Plain forms -/

theorem isAtomChar_of_isWordChar {c : Char} (h : isWordChar c = true) : isAtomChar c = true := by
  simp only [isAtomChar, Bool.and_eq_true, bne_iff_ne]
  refine ⟨⟨?_, ?_⟩, ?_⟩ <;> rintro rfl <;> exact absurd h (by decide)

/-- A word is an atom that starts with no digit. -/
theorem atom_of_isWord {cs : List Char} (h : isWord cs = true) :
    (Bracketed.atom cs).IsPlain ∧ cs.head?.any Char.isDigit = false := by
  refine ⟨⟨?_, List.all_eq_true.mpr fun c hc => ?_⟩, ?_⟩
  · rintro rfl
    cases h
  · exact isAtomChar_of_isWordChar (isWordChar_of_isWord h c hc)
  · cases cs with
    | nil => rfl
    | cons c cs => exact isDigit_of_isWordStart (Bool.and_eq_true_iff.mp h).1

theorem isWord_of_isIdent {name : Name} (h : name.isIdent = true) :
    isWord name.text.toList = true :=
  (Bool.and_eq_true_iff.mp h).1

theorem isWord_of_isTypeText {type : String} (h : isTypeText type = true) :
    isWord type.toList = true :=
  (Bool.and_eq_true_iff.mp h).1

/-- The text of a number that has a literal is an atom that starts with a digit, and it is read as
the number. -/
theorem atom_of_isNumeral {text : String} {value : Binary32}
    (hs : (Token.number text).isSpelled = true) (hv : Binary32.ofText? text = some value)
    (hf : value.IsFinite) :
    (Bracketed.atom value.text.toList).IsPlain ∧ value.text.toList.head?.any Char.isDigit = true ∧
      Binary32.ofText? value.text = some value := by
  obtain ⟨hproper, quanta, rfl⟩ := Binary32.exists_quanta_of_isNumeral hs hv hf
  obtain ⟨n, hn⟩ := Binary32.exists_numeral_text hproper
  obtain ⟨c, cs, hcs, hc⟩ := n.exists_digit_cons
  refine ⟨⟨?_, List.all_eq_true.mpr fun d hd => ?_⟩, ?_, Binary32.ofText?_text hproper⟩
  · rw [hn, hcs]
    exact List.cons_ne_nil c cs
  · rw [hn] at hd
    simp only [isAtomChar, Bool.and_eq_true, bne_iff_ne]
    refine ⟨⟨?_, ?_⟩, ?_⟩ <;> rintro rfl <;> exact absurd (n.mem_chars hd) (by decide)
  · rw [hn, hcs]
    exact hc

namespace Expr

mutual

/-- The form of an expression that can be written is plain, if its numbers are finite. -/
theorem isPlain_bracketed : ∀ {e : Expr}, e.Writable → e.isFinite = true → e.bracketed.IsPlain
  | .number value, ⟨text, hs, hv⟩, hf => (atom_of_isNumeral hs hv (of_decide_eq_true hf)).1
  | .var name, hw, _ => (atom_of_isWord (isWord_of_isIdent hw)).1
  | .neg inner, hw, hf => ⟨by decide, isPlain_bracketed hw hf, trivial⟩
  | .not inner, hw, hf => ⟨by decide, isPlain_bracketed hw hf, trivial⟩
  | .binary op left right, hw, hf => by
    obtain ⟨hl, hr⟩ := Bool.and_eq_true_iff.mp hf
    exact ⟨by cases op <;> decide, isPlain_bracketed hw.1 hl, isPlain_bracketed hw.2 hr, trivial⟩
  | .call receiver member args, ⟨hr, hm, hargs⟩, hf => by
    have hreceiver := (atom_of_isWord hr).1.2
    have hmember := (atom_of_isWord (isWord_of_isIdent hm)).1.2
    refine ⟨?_, partsPlain_argsBracketed hargs hf⟩
    rw [List.all_append, List.all_cons, hreceiver, hmember]
    rfl
  | .construct type args, ⟨ht, hargs⟩, hf =>
    ⟨by decide, (atom_of_isWord (isWord_of_isTypeText ht)).1, partsPlain_argsBracketed hargs hf⟩

theorem partsPlain_argsBracketed : ∀ {args : List Expr}, ArgsWritable args →
    argsFinite args = true → Bracketed.PartsPlain (argsBracketed args)
  | [], _, _ => trivial
  | arg :: args, ⟨hw, hws⟩, hf => by
    obtain ⟨hf, hfs⟩ := Bool.and_eq_true_iff.mp hf
    exact ⟨isPlain_bracketed hw hf, partsPlain_argsBracketed hws hfs⟩

end

end Expr

/-! ## Reading forms -/

/-- The operator with a symbol. -/
def BinaryOp.ofSymbol? : String → Option BinaryOp
  | "||" => some .or
  | "&&" => some .and
  | "==" => some .eq
  | "<" => some .lt
  | "<=" => some .le
  | ">" => some .gt
  | ">=" => some .ge
  | "+" => some .add
  | "-" => some .sub
  | "*" => some .mul
  | "/" => some .div
  | "%" => some .mod
  | "**" => some .pow
  | _ => none

/-- The name that some characters are, without a place. -/
def Name.ofChars (cs : List Char) : Name :=
  ⟨String.ofList cs, ⟨0, 0⟩⟩

/-- The expression with a head and parts, if there is one. Only the head of a call has a dot. -/
def Expr.ofParts? (head : List Char) (parts : List Expr) : Option Expr :=
  if head.contains '.' then
    some (.call (.ofChars (head.takeWhile (· != '.'))) (.ofChars (head.dropWhile (· != '.')).tail)
      parts)
  else
    match String.ofList head, parts with
    | "neg", [inner] => some (.neg inner)
    | "!", [inner] => some (.not inner)
    | "new", .var type :: args => some (.construct type args)
    | symbol, [left, right] => (BinaryOp.ofSymbol? symbol).map (.binary · left right)
    | _, _ => none

namespace Bracketed

mutual

/-- The expression that a form shows, without places. An atom with a digit in front is a number. -/
def expr? : Bracketed → Option Expr
  | .atom cs =>
    if cs.head?.any Char.isDigit then (Binary32.ofChars? cs).map Expr.number
    else some (.var (.ofChars cs))
  | .node head parts => (exprs? parts).bind (Expr.ofParts? head)

/-- The expressions that some parts show. -/
def exprs? : List Bracketed → Option (List Expr)
  | [] => some []
  | part :: parts => do return (← part.expr?) :: (← exprs? parts)

end

end Bracketed

namespace Expr

/-- The head of a call divides at its dot, since words have none. -/
theorem ofParts?_call {receiver member : Name} (hr : receiver.isReceiver = true)
    (args : List Expr) :
    ofParts? (receiver.text.toList ++ '.' :: member.text.toList) args =
      some (.call receiver.unplaced member.unplaced args) := by
  have hword : ∀ c ∈ receiver.text.toList, (c != '.') = true := by
    intro c hc
    refine bne_iff_ne.mpr ?_
    rintro rfl
    exact absurd (isWordChar_of_isWord hr '.' hc) (by decide)
  have hdot : ∀ c ∈ ('.' :: member.text.toList).head?, (c != '.') = false := by simp
  obtain ⟨htake, hdrop⟩ := span_append hword hdot
  simp [ofParts?, htake, hdrop, Name.ofChars, Name.unplaced]

theorem ofParts?_binary (op : BinaryOp) (left right : Expr) :
    ofParts? op.symbol.toList [left, right] = some (.binary op left right) := by
  cases op <;> rfl

mutual

/-- **The form of an expression shows it.** -/
theorem expr?_bracketed : ∀ {e : Expr}, e.Writable → e.isFinite = true →
    e.bracketed.expr? = some e.unplaced
  | .number value, ⟨text, hs, hv⟩, hf => by
    obtain ⟨-, hdigit, hread⟩ := atom_of_isNumeral hs hv (of_decide_eq_true hf)
    rw [bracketed, Bracketed.expr?, if_pos hdigit, ← Binary32.ofText?, hread]
    rfl
  | .var name, hw, _ => by
    rw [bracketed, Bracketed.expr?, (atom_of_isWord (isWord_of_isIdent hw)).2]
    simp [Name.ofChars, map, Name.unplaced]
  | .neg inner, hw, hf => by
    rw [bracketed, Bracketed.expr?, Bracketed.exprs?, expr?_bracketed (e := inner) hw hf]
    rfl
  | .not inner, hw, hf => by
    rw [bracketed, Bracketed.expr?, Bracketed.exprs?, expr?_bracketed (e := inner) hw hf]
    rfl
  | .binary op left right, hw, hf => by
    obtain ⟨hl, hr⟩ := Bool.and_eq_true_iff.mp hf
    rw [bracketed, Bracketed.expr?, Bracketed.exprs?, expr?_bracketed hw.1 hl, Bracketed.exprs?,
      expr?_bracketed hw.2 hr]
    exact ofParts?_binary op _ _
  | .call receiver member args, ⟨hr, hm, hargs⟩, hf => by
    rw [bracketed, Bracketed.expr?, exprs?_argsBracketed hargs hf]
    exact ofParts?_call hr _
  | .construct type args, ⟨ht, hargs⟩, hf => by
    have htype : (Bracketed.atom type.text.toList).expr? = some (.var type.unplaced) := by
      rw [Bracketed.expr?, (atom_of_isWord (isWord_of_isTypeText ht)).2]
      simp [Name.ofChars, Name.unplaced]
    rw [bracketed, Bracketed.expr?, Bracketed.exprs?, htype, exprs?_argsBracketed hargs hf]
    rfl

theorem exprs?_argsBracketed : ∀ {args : List Expr}, ArgsWritable args → argsFinite args = true →
    Bracketed.exprs? (argsBracketed args) = some (mapArgs .unplaced args)
  | [], _, _ => rfl
  | arg :: args, ⟨hw, hws⟩, hf => by
    obtain ⟨hf, hfs⟩ := Bool.and_eq_true_iff.mp hf
    rw [argsBracketed, Bracketed.exprs?, expr?_bracketed hw hf, exprs?_argsBracketed hws hfs]
    rfl

end

/-- Expressions that can be written and have the same text differ in places only. -/
theorem unplaced_eq_of_text_eq {e e' : Expr} (hw : e.Writable) (hw' : e'.Writable)
    (hf : e.isFinite = true) (hf' : e'.isFinite = true) (h : e.text = e'.text) :
    e.unplaced = e'.unplaced := by
  have hchars : e.bracketed.chars = e'.bracketed.chars := by
    rw [← toList_text, ← toList_text, h]
  have hform := Bracketed.chars_inj (isPlain_bracketed hw hf) (isPlain_bracketed hw' hf') hchars
  have hshown := expr?_bracketed hw hf
  rw [hform, expr?_bracketed hw' hf'] at hshown
  exact (Option.some.inj hshown).symm

/-- An expression that is read somewhere in the tokens of a text. -/
def IsRead (e : Expr) : Prop :=
  ∃ source tokens c c', tokenize source = .ok tokens ∧
    c.rest <:+ (Cursor.ofTokens tokens).rest ∧ Parser.expression.run c = .ok e c'

/-- What is read can be written. -/
theorem IsRead.writable {e : Expr} (h : e.IsRead) : e.Writable := by
  obtain ⟨source, tokens, c, c', ht, hc, hrun⟩ := h
  obtain ⟨ts, hts, hd⟩ := ((Parser.scanned_readings_derived ht).2 c hc).2 e c' hrun
  obtain ⟨ls, eof, rfl, heof, hne, -⟩ := tokenize_ok ht
  refine hd.writable fun l hl => ?_
  obtain ⟨l, hmem, rfl⟩ := List.mem_map.mp hl
  have hrest : l ∈ (Cursor.ofTokens (ls ++ [eof])).rest :=
    hc.subset (hts ▸ List.mem_append_left _ hmem)
  rw [Cursor.rest_ofTokens_append hne heof] at hrest
  have hspelled := isSpelled_of_tokenize ht l (List.mem_append_left _ hrest) (hne l hrest)
  rwa [Lexeme.flat, Token.isSpelled_flat]

/-- **The text of an expression identifies it.** Two expressions that are read from texts, and whose
numbers are finite, differ in places only if they have the same text in brackets. -/
theorem text_injective {e e' : Expr} (h : e.IsRead) (h' : e'.IsRead) (hf : e.isFinite = true)
    (hf' : e'.isFinite = true) (ht : e.text = e'.text) : e.unplaced = e'.unplaced :=
  unplaced_eq_of_text_eq h.writable h'.writable hf hf' ht

/-- The expression that a text starts with. -/
def ofSource? (source : String) : Option Expr :=
  match tokenize source with
  | .error _ => none
  | .ok tokens =>
    match Parser.expression.run (Cursor.ofTokens tokens) with
    | .ok e _ => some e
    | .error _ _ => none

theorem isRead_of_ofSource? {source : String} {e : Expr} (h : ofSource? source = some e) :
    e.IsRead := by
  rw [ofSource?] at h
  split at h
  · cases h
  · next tokens ht =>
    split at h
    · next c' hrun =>
      cases h
      exact ⟨source, tokens, _, c', ht, List.suffix_rfl, hrun⟩
    · cases h

/-- An expression with all kinds of brackets, in which a variable has the name of one. -/
def nestedText : String :=
  "(- neg (* 1.5 (new Vector2 (neg (! x)) (Math.sin 0.1))))"

/-- It is read from two texts with other spaces, parentheses and literals. -/
theorem text_injective_nestedText :
    ∃ e e' : Expr, e.IsRead ∧ e'.IsRead ∧ e.text = nestedText ∧ e'.text = nestedText ∧
      e.names ≠ e'.names ∧ e.unplaced = e'.unplaced := by
  have hread : ∀ source place, ((ofSource? source).any fun e =>
      e.isFinite && e.text == nestedText && e.names.head?.map (·.span) == some place) = true →
      ∃ e : Expr, e.IsRead ∧ e.isFinite = true ∧ e.text = nestedText ∧
        e.names.head?.map (·.span) = some place := by
    intro source place h
    rcases he : ofSource? source with _ | e <;> rw [he] at h
    · cases h
    · simp only [Option.any_some, Bool.and_eq_true, beq_iff_eq] at h
      exact ⟨e, isRead_of_ofSource? he, h.1.1, h.1.2, h.2⟩
  obtain ⟨e, h, hf, ht, hplace⟩ := hread "neg-1.5*new Vector2(-!x,Math.sin(.1))" ⟨0, 3⟩
    (by decide +kernel)
  obtain ⟨e', h', hf', ht', hplace'⟩ :=
    hread "(neg - (01.50 * new Vector2 ( - (! x) , Math. sin(0.10), )))" ⟨1, 4⟩ (by decide +kernel)
  refine ⟨e, e', h, h', ht, ht', fun hnames => ?_, text_injective h h' hf hf' (ht.trans ht'.symm)⟩
  rw [hnames, hplace'] at hplace
  cases hplace

end Expr

end ScriptGraph
