import ScriptGraph.Proofs.Parsing.RoundTrip
import ScriptGraph.Proofs.Token.Segmentation
import ScriptGraph.Proofs.Tree.Parts

/-!
# Tokens, names and statements at their places

A place in a tree comes from the tokens that the tree was read from, and a token stands in the text
where it says it does. So every name of a program can be read at its place in the source.

* `Span.slice_append`, `Span.Cuts.merge` — a text cut at several points;
* `tokenize_segmented`, `refused_of_tokenize` — the tokens of a text cut it into pieces, and a text
  without tokens has a character that starts none;
* `ExprDerived.derivedIn`, `BodyDerived.bodies_infix` — every expression of a tree is derived from some
  of the tokens, every body from a stretch of them;
* `ExprDerived.names_from`, `StmtDerived.target_from` — its names are spelled by them;
* `Name.Stands`, `Stmt.DerivedIn.cuts` — hence names and statements stand in the text where they
  say.
-/

namespace ScriptGraph

open Scanner

/-! ## Points of a text -/

section

variable {source : String} {before behind : List Char} {a b c : Nat}

/-- A point of a text that is not before another one is behind some of the characters that are still
to come there. -/
theorem exists_taken_of_valid (h : source.toList = before ++ behind)
    (hle : String.utf8Len before ≤ b) (hv : String.Pos.Raw.Valid source ⟨b⟩) :
    ∃ taken rest, behind = taken ++ rest ∧ b = String.utf8Len before + String.utf8Len taken := by
  rcases Nat.lt_or_eq_of_le hle with hlt | rfl
  · obtain ⟨taken, ⟨rest, hr⟩, hb, -⟩ := exists_prefix_of_valid h hlt hv
    exact ⟨taken, rest, hr.symm, hb⟩
  · exact ⟨[], behind, rfl, by simp⟩

theorem exists_before_of_valid (hv : String.Pos.Raw.Valid source ⟨a⟩) :
    ∃ before behind, source.toList = before ++ behind ∧ a = String.utf8Len before := by
  obtain ⟨before, behind, rfl, hp⟩ := hv.exists
  exact ⟨before, behind, String.toList_ofList, congrArg String.Pos.Raw.byteIdx hp⟩

/-- What stands between two points of a text, with a third one between them. -/
theorem Span.slice_append (ha : String.Pos.Raw.Valid source ⟨a⟩)
    (hb : String.Pos.Raw.Valid source ⟨b⟩) (hc : String.Pos.Raw.Valid source ⟨c⟩) (hab : a ≤ b)
    (hbc : b ≤ c) :
    Span.slice source ⟨a, c⟩ = Span.slice source ⟨a, b⟩ ++ Span.slice source ⟨b, c⟩ := by
  obtain ⟨before, behind, hs, rfl⟩ := exists_before_of_valid ha
  obtain ⟨first, rest, rfl, rfl⟩ := exists_taken_of_valid hs hab hb
  rw [← String.utf8Len_append] at hbc hb ⊢
  have hs' : source.toList = (before ++ first) ++ rest := by rw [hs, List.append_assoc]
  obtain ⟨second, rest, rfl, rfl⟩ := exists_taken_of_valid hs' hbc hc
  have hs'' : source.toList = before ++ ((first ++ second) ++ rest) := by rw [hs, List.append_assoc]
  rw [slice_eq hs', String.utf8Len_append, slice_eq hs, Nat.add_assoc, ← String.utf8Len_append,
    slice_eq hs'', String.ofList_append]

end

namespace Span.Cuts

variable {source : String} {span other : Span}

/-- The text behind the start of a place begins with what stands there. -/
theorem charsFrom_eq (h : span.Cuts source) :
    charsFrom source span.start = (span.slice source).toList ++ charsFrom source span.stop := by
  have hstop : span.stop ≤ source.utf8ByteSize := h.stop.le_rawEndPos
  rw [charsFrom, charsFrom, ← String.toList_append,
    Span.slice_append h.start h.stop String.Pos.Raw.valid_rawEndPos (Nat.le_of_lt h.lt) hstop]

/-- A place that covers two others starts and ends between characters too. -/
theorem merge (h : span.Cuts source) (h' : other.Cuts source) : (span.merge other).Cuts source where
  start := by
    rw [Span.merge]
    rcases Nat.le_total span.start other.start with hle | hle
    · rw [Nat.min_eq_left hle]
      exact h.start
    · rw [Nat.min_eq_right hle]
      exact h'.start
  stop := by
    rw [Span.merge]
    rcases Nat.le_total span.stop other.stop with hle | hle
    · rw [Nat.max_eq_right hle]
      exact h'.stop
    · rw [Nat.max_eq_left hle]
      exact h.stop
  lt := by
    have := h.lt
    simp only [Span.merge]
    omega

end Span.Cuts

/-! ## The tokens of a text -/

/-- What scanning the rest of a text yields: tokens that cut it into pieces, or a character that
starts none. -/
theorem Scanner.At.tokens {source : String} {s : Scanner} {n : Nat} (h : s.At source)
    (hn : s.rest.length ≤ n) :
    match s.tokens n with
    | .ok ls => ∃ ts, ls = ts ++ [⟨.eof, ⟨source.utf8ByteSize, source.utf8ByteSize⟩⟩] ∧
        Segmented source s.offset (ts.map .ok)
    | .error e => ∃ span c, e = .unexpectedChar span c ∧ Refused source span c := by
  induction n generalizing s with
  | zero =>
    have hr : s.rest = [] := List.eq_nil_of_length_eq_zero (Nat.le_zero.mp hn)
    rcases h.next with ⟨-, hb, -⟩ | ⟨-, hlt, -⟩
    · rw [Scanner.tokens]
      exact ⟨[], by rw [h.offset_eq hr]; rfl, .nil hb⟩
    · rw [hr] at hlt
      cases hlt
  | succ n ih =>
    obtain ⟨hat, -, hblank, -⟩ := h.skipBlanks
    rcases s.next_cases with ⟨hr, hnext⟩ | ⟨c, cs, hr, ht, hnext⟩ | ⟨c, cs, t, hr, ht, hnext⟩
    · rw [hat.offset_eq hr] at hnext hblank
      simp only [Scanner.tokens, hnext, if_true]
      exact ⟨[], rfl, .nil hblank⟩
    · simp only [Scanner.tokens, hnext]
      exact ⟨_, c, rfl, hat.refused hr ht⟩
    · have hne : t ≠ .eof := by
        rintro rfl
        exact absurd (isSpelled_token? ht) (by decide)
      rcases h.next with ⟨hend, -⟩ | ⟨hat', hlt, hseg⟩
      · rw [hnext] at hend
        injection hend with hl
        exact absurd (congrArg Lexeme.token hl) hne
      · have hrest := ih hat' (by omega)
        simp only [hnext] at hrest hseg
        simp only [Scanner.tokens, hnext, if_neg hne]
        rcases hts : Scanner.tokens n _ with e | ls <;> rw [hts] at hrest
        · exact hrest
        · obtain ⟨ts, rfl, hs⟩ := hrest
          exact ⟨_ :: ts, rfl, hseg _ hs⟩

/-- The tokens of a text cut it into pieces. -/
theorem tokenize_segmented {source : String} {tokens : List Lexeme}
    (h : tokenize source = .ok tokens) :
    ∃ ts, tokens = ts ++ [⟨.eof, ⟨source.utf8ByteSize, source.utf8ByteSize⟩⟩] ∧
      Segmented source 0 (ts.map .ok) := by
  have hs := (at_ofChars source).tokens (Nat.le_refl _)
  rw [tokenize] at h
  rwa [h] at hs

/-- A text without tokens has a character that starts none. -/
theorem refused_of_tokenize {source : String} {e : SourceError} (h : tokenize source = .error e) :
    ∃ span c, e = .unexpectedChar span c ∧ Refused source span c := by
  have hs := (at_ofChars source).tokens (Nat.le_refl _)
  rw [tokenize] at h
  rwa [h] at hs

namespace Segmented

variable {source : String} {offset : Nat} {ts : List Lexeme}

/-- Each of the tokens stands at its place. -/
theorem munched (h : Segmented source offset (ts.map .ok)) : ∀ l ∈ ts, l.Munched source := by
  induction ts generalizing offset with
  | nil => exact nofun
  | cons l ts ih =>
    cases h with
    | token _ _ hl hs => exact List.forall_mem_cons.mpr ⟨hl, ih hs⟩

theorem ne_eof (h : Segmented source offset (ts.map .ok)) : ∀ l ∈ ts, l.token ≠ .eof := by
  intro l hl he
  have hspelled := (h.munched l hl).spelled
  rw [he] at hspelled
  cases hspelled

/-- Between two tokens one behind the other there is only white space. -/
theorem blank_between {a b : Lexeme} (h : Segmented source offset (ts.map .ok))
    (hab : [a, b] <:+: ts) :
    a.span.stop ≤ b.span.start ∧ Span.Blank source ⟨a.span.stop, b.span.start⟩ := by
  obtain ⟨before, behind, rfl⟩ := hab
  induction before generalizing offset with
  | nil =>
    cases h with
    | token _ _ _ hs =>
      cases hs with
      | token hle hb _ _ => exact ⟨hle, hb⟩
  | cons l before ih =>
    cases h with
    | token _ _ _ hs => exact ih hs

end Segmented

/-! ## Parts of a derived tree -/

variable {w v : List Lexeme}

/-- An expression that is derived from some of the tokens of a word. A number need not be: the one
that an increment carries is not written. -/
inductive Expr.DerivedIn (w : List Lexeme) : Expr → Prop where
  | number (value : Binary32) : Expr.DerivedIn w (.number value)
  | derived {strata : List Stratum} {v : List Lexeme} {e : Expr} (h : ExprDerived strata v e)
      (hv : v ⊆ w) : Expr.DerivedIn w e

/-- A statement that is derived from some of the tokens of a word. -/
def Stmt.DerivedIn (w : List Lexeme) (s : Stmt) : Prop :=
  ∃ isOpen v, StmtDerived ArgsDerived isOpen v s ∧ v ⊆ w

theorem Expr.DerivedIn.mono {e : Expr} (h : e.DerivedIn v) (hv : v ⊆ w) : e.DerivedIn w := by
  cases h with
  | number value => exact .number value
  | derived hd hu => exact .derived hd (List.Subset.trans hu hv)

mutual

/-- Every part of a derived expression is derived. -/
theorem ExprDerived.derivedIn {strata : List Stratum} {w : List Lexeme} {e : Expr} :
    ExprDerived strata w e → ∀ x ∈ e.parts, x.DerivedIn w
  | .operand h => h.derivedIn
  | .binary hl ho hr => by
    intro x hx
    simp only [Expr.parts, List.mem_cons, List.mem_append] at hx
    rcases hx with rfl | hx | hx
    · exact .derived (.binary hl ho hr) (List.Subset.refl _)
    · exact (hl.derivedIn x hx).mono (by simp)
    · exact (hr.derivedIn x hx).mono (by intro l; simp +contextual)
  | .number hv => by
    intro x hx
    obtain rfl := List.mem_singleton.mp hx
    exact .derived (.number hv) (List.Subset.refl _)
  | .fraction hv => by
    intro x hx
    obtain rfl := List.mem_singleton.mp hx
    exact .derived (.fraction hv) (List.Subset.refl _)
  | .group h => fun x hx => (h.derivedIn x hx).mono (by intro l; simp +contextual)
  | .var => by
    intro x hx
    obtain rfl := List.mem_singleton.mp hx
    exact .derived .var (List.Subset.refl _)
  | .neg h => by
    intro x hx
    rcases List.mem_cons.mp hx with rfl | hx
    · exact .derived (.neg h) (List.Subset.refl _)
    · exact (h.derivedIn x hx).mono (by simp)
  | .not h => by
    intro x hx
    rcases List.mem_cons.mp hx with rfl | hx
    · exact .derived (.not h) (List.Subset.refl _)
    · exact (h.derivedIn x hx).mono (by simp)
  | .construct h => by
    intro x hx
    rcases List.mem_cons.mp hx with rfl | hx
    · exact .derived (.construct h) (List.Subset.refl _)
    · exact (h.derivedIn x hx).mono (by intro l; simp +contextual)
  | .call h => by
    intro x hx
    rcases List.mem_cons.mp hx with rfl | hx
    · exact .derived (.call h) (List.Subset.refl _)
    · exact (h.derivedIn x hx).mono (by intro l; simp +contextual)

theorem ArgListDerived.derivedIn {w : List Lexeme} {es : List Expr} :
    ArgListDerived w es → ∀ x ∈ Expr.argsParts es, x.DerivedIn w
  | .one h => fun x hx => h.derivedIn x (by simpa [Expr.argsParts] using hx)
  | .more h hs => by
    intro x hx
    rcases List.mem_append.mp hx with hx | hx
    · exact (h.derivedIn x hx).mono (by simp)
    · exact (hs.derivedIn x hx).mono (by intro l; simp +contextual)

theorem ArgsDerived.derivedIn {w : List Lexeme} {es : List Expr} :
    ArgsDerived w es → ∀ x ∈ Expr.argsParts es, x.DerivedIn w
  | .none => nofun
  | .some h => h.derivedIn
  | .trailing h => fun x hx => (h.derivedIn x hx).mono (by simp)

end

/-- The expressions of a derived statement are derived. -/
theorem StmtDerived.exprs_derivedIn {isOpen : Bool} {s : Stmt}
    (h : StmtDerived ArgsDerived isOpen w s) :
    ∀ x ∈ Expr.argsParts s.exprs, x.DerivedIn w := by
  have hone : ∀ {strata : List Stratum} {v : List Lexeme} {e : Expr}, ExprDerived strata v e →
      v ⊆ w → ∀ x ∈ Expr.argsParts [e], x.DerivedIn w :=
    fun he hv x hx => (he.derivedIn x (by simpa [Expr.argsParts] using hx)).mono hv
  cases h with
  | declare hw => exact nofun
  | declareAs hv hw => exact hone hv (by intro l; simp +contextual [hw])
  | publish hw => exact nofun
  | step hs hm hw =>
    intro x hx
    obtain rfl := List.mem_singleton.mp hx
    exact .number 1
  | assign hs hm hv hw => exact hone hv (by intro l; simp +contextual [hw])
  | call ha hw =>
    exact hone (.call ha) (by intro l; simp only [hw, List.mem_cons, List.mem_append]; tauto)
  | ret ha hw => exact fun x hx => (ha.derivedIn x hx).mono (by intro l; simp +contextual [hw])
  | choose ht hb hw => exact hone ht (by intro l; simp +contextual [hw])
  | chooseElse ht hb he hw => exact hone ht (by intro l; simp +contextual [hw])

mutual

/-- The bodies in the branches of a derived statement are derived, each from a stretch of its
tokens. -/
theorem StmtDerived.bodies_infix {isOpen : Bool} {w : List Lexeme} {s : Stmt} :
    StmtDerived ArgsDerived isOpen w s →
      ∀ body ∈ s.bodies, ∃ v, BodyDerived ArgsDerived v body ∧ v <:+: w
  | .declare _ | .declareAs _ _ | .publish _ | .step _ _ _ | .assign _ _ _ _ | .call _ _
  | .ret _ _ => nofun
  | @StmtDerived.choose _ _ t b _ _ _ s o c _ hb hw => by
    intro body hbody
    obtain ⟨v, hv, hi⟩ := hb.bodies_infix body hbody
    have hb : b <:+: w := ⟨⟨.keyIf, s⟩ :: ⟨.lparen 0, o⟩ :: t ++ [⟨.rparen 0, c⟩], [], by simp [hw]⟩
    exact ⟨v, hv, hi.trans hb⟩
  | @StmtDerived.chooseElse _ _ t b b' _ _ _ _ s o c k _ ht he hw => by
    intro body hbody
    rcases List.mem_append.mp hbody with hbody | hbody
    · obtain ⟨v, hv, hi⟩ := ht.bodies_infix body hbody
      have hb : b <:+: w :=
        ⟨⟨.keyIf, s⟩ :: ⟨.lparen 0, o⟩ :: t ++ [⟨.rparen 0, c⟩], ⟨.keyElse, k⟩ :: b', by simp [hw]⟩
      exact ⟨v, hv, hi.trans hb⟩
    · obtain ⟨v, hv, hi⟩ := he.bodies_infix body hbody
      have hb : b' <:+: w :=
        ⟨⟨.keyIf, s⟩ :: ⟨.lparen 0, o⟩ :: t ++ ⟨.rparen 0, c⟩ :: b ++ [⟨.keyElse, k⟩], [],
          by simp [hw]⟩
      exact ⟨v, hv, hi.trans hb⟩

theorem BranchDerived.bodies_infix {isOpen : Bool} {w : List Lexeme} {branch : List Stmt} :
    BranchDerived ArgsDerived isOpen w branch →
      ∀ body ∈ branch :: Stmt.bodiesIn branch, ∃ v, BodyDerived ArgsDerived v body ∧ v <:+: w
  | @BranchDerived.block _ u _ o c h => by
    intro body hbody
    obtain ⟨v, hv, hi⟩ := h.bodies_infix body hbody
    exact ⟨v, hv, hi.trans ⟨[⟨.lbrace 0, o⟩], [⟨.rbrace 0, c⟩], by simp⟩⟩
  | .single h => by
    intro body hbody
    rcases List.mem_cons.mp hbody with rfl | hbody
    · -- one statement without braces is a body of its own
      exact ⟨w ++ [], .cons h .nil, by simp⟩
    · exact h.bodies_infix body (by simpa [Stmt.bodiesIn] using hbody)

/-- So are a body and those in its branches. -/
theorem BodyDerived.bodies_infix {w : List Lexeme} {whole : List Stmt} :
    BodyDerived ArgsDerived w whole →
      ∀ body ∈ whole :: Stmt.bodiesIn whole, ∃ v, BodyDerived ArgsDerived v body ∧ v <:+: w
  | .nil => by
    intro body hbody
    obtain rfl := List.mem_singleton.mp hbody
    exact ⟨[], .nil, List.infix_rfl⟩
  | .cons h hs => by
    intro body hbody
    rcases List.mem_cons.mp hbody with rfl | hbody
    · exact ⟨_, .cons h hs, List.infix_rfl⟩
    · rcases List.mem_append.mp hbody with hbody | hbody
      · obtain ⟨v, hv, hi⟩ := h.bodies_infix body hbody
        exact ⟨v, hv, hi.trans (List.prefix_append _ _).isInfix⟩
      · obtain ⟨v, hv, hi⟩ := hs.bodies_infix body (List.mem_cons_of_mem _ hbody)
        exact ⟨v, hv, hi.trans (List.suffix_append _ _).isInfix⟩

end

/-- The statements of a derived body are derived, each from a stretch of its tokens. -/
theorem BodyDerived.of_mem {w : List Lexeme} {body : List Stmt} :
    BodyDerived ArgsDerived w body →
      ∀ s ∈ body, ∃ isOpen v, StmtDerived ArgsDerived isOpen v s ∧ v <:+: w
  | .nil => nofun
  | .cons h hs => by
    refine List.forall_mem_cons.mpr ⟨⟨_, _, h, (List.prefix_append _ _).isInfix⟩, fun s hm => ?_⟩
    obtain ⟨isOpen, v, hv, hi⟩ := hs.of_mem s hm
    exact ⟨isOpen, v, hv, hi.trans (List.suffix_append _ _).isInfix⟩

/-! ## Names and places -/

/-- A name that a token of a word spells. -/
def Name.From (w : List Lexeme) (n : Name) : Prop :=
  ∃ l ∈ w, l.token.text = n.text ∧ l.span = n.span

theorem Name.From.mono {n : Name} (h : n.From v) (hv : v ⊆ w) : n.From w := by
  obtain ⟨l, hl, ht⟩ := h
  exact ⟨l, hv hl, ht⟩

mutual

/-- The names of a derived expression are spelled by its tokens. -/
theorem ExprDerived.names_from {strata : List Stratum} {w : List Lexeme} {e : Expr} :
    ExprDerived strata w e → ∀ n ∈ e.names, n.From w
  | .operand h => h.names_from
  | .binary hl _ hr => by
    intro n hn
    rcases List.mem_append.mp hn with hn | hn
    · exact (hl.names_from n hn).mono (by simp)
    · exact (hr.names_from n hn).mono (by intro l; simp +contextual)
  | .number _ => nofun
  | .fraction _ => nofun
  | .group h => fun n hn => (h.names_from n hn).mono (by intro l; simp +contextual)
  | @ExprDerived.var text s => by
    intro n hn
    obtain rfl := List.mem_singleton.mp hn
    exact ⟨⟨.ident text, s⟩, by simp, rfl, rfl⟩
  | .neg h => fun n hn => (h.names_from n hn).mono (by simp)
  | .not h => fun n hn => (h.names_from n hn).mono (by simp)
  | @ExprDerived.construct _ _ type _ t _ _ h => by
    intro n hn
    rcases List.mem_cons.mp hn with rfl | hn
    · exact ⟨⟨.typeName type, t⟩, by simp, rfl, rfl⟩
    · exact (h.names_from n hn).mono (by intro l; simp +contextual)
  | @ExprDerived.call _ _ receiver member r _ m _ _ h => by
    intro n hn
    simp only [Expr.names, List.mem_cons] at hn
    rcases hn with rfl | rfl | hn
    · exact ⟨⟨.qualifier receiver, r⟩, by simp, rfl, rfl⟩
    · exact ⟨⟨.ident member, m⟩, by simp, rfl, rfl⟩
    · exact (h.names_from n hn).mono (by intro l; simp +contextual)

theorem ArgListDerived.names_from {w : List Lexeme} {es : List Expr} :
    ArgListDerived w es → ∀ n ∈ Expr.argsNames es, n.From w
  | .one h => fun n hn => h.names_from n (by simpa [Expr.argsNames] using hn)
  | .more h hs => by
    intro n hn
    rcases List.mem_append.mp hn with hn | hn
    · exact (h.names_from n hn).mono (by simp)
    · exact (hs.names_from n hn).mono (by intro l; simp +contextual)

theorem ArgsDerived.names_from {w : List Lexeme} {es : List Expr} :
    ArgsDerived w es → ∀ n ∈ Expr.argsNames es, n.From w
  | .none => nofun
  | .some h => h.names_from
  | .trailing h => fun n hn => (h.names_from n hn).mono (by simp)

end

theorem Expr.DerivedIn.names_from {e : Expr} (h : e.DerivedIn w) : ∀ n ∈ e.names, n.From w := by
  intro n hn
  cases h with
  | number value => cases hn
  | derived he hv => exact (he.names_from n hn).mono hv

/-- The name that a statement gives a value, if it does. -/
def Stmt.target? : Stmt → Option Name
  | .declare d _ => some d.name
  | .assign target _ _ _ => some target
  | _ => none

theorem StmtDerived.target_from {isOpen : Bool} {s : Stmt}
    (h : StmtDerived ArgsDerived isOpen w s) :
    ∀ n ∈ s.target?, n.From w := by
  rintro n hn
  cases h with
  | @declare _ _ name _ t _ hw | @declareAs _ _ _ name _ _ t _ _ _ hw
  | @publish _ _ name _ _ t _ hw =>
    cases hn
    exact ⟨⟨.ident name, t⟩, by simp [hw], rfl, rfl⟩
  | @step _ _ name _ s _ _ _ hw | @assign _ _ _ name _ _ s _ _ _ _ hw =>
    cases hn
    exact ⟨⟨.ident name, s⟩, by simp [hw], rfl, rfl⟩
  | call _ _ | ret _ _ | choose _ _ _ | chooseElse _ _ _ _ => cases hn

/-- The place of a statement covers its tokens. -/
theorem StmtDerived.span_eq {isOpen : Bool} {s : Stmt} (h : StmtDerived ArgsDerived isOpen w s) :
    s.span = cover w := by
  cases h <;> rfl

/-- Each declaration of a program is derived from a stretch of its tokens. -/
theorem ItemsDerived.of_mem {items : List Item} (h : ItemsDerived ArgsDerived w items) :
    ∀ item ∈ items, ∃ v, ItemDerived ArgsDerived v item ∧ v <:+: w := by
  induction h with
  | nil => exact nofun
  | cons hd _ ih =>
    refine List.forall_mem_cons.mpr ⟨⟨_, hd, (List.prefix_append _ _).isInfix⟩, fun item hi => ?_⟩
    obtain ⟨v, hv, hi⟩ := ih item hi
    exact ⟨v, hv, hi.trans (List.suffix_append _ _).isInfix⟩

/-- So is each method. -/
theorem ItemsDerived.method_of_mem {p : Program} (h : ItemsDerived ArgsDerived w p.items) {m : Method}
    (hm : m ∈ p.methods) : ∃ v, ItemDerived ArgsDerived v (.method m) ∧ v <:+: w := by
  obtain ⟨item, hi, hitem⟩ := List.mem_filterMap.mp hm
  cases item with
  | globalVar d => cases hitem
  | method m' =>
    cases hitem
    exact h.of_mem _ hi

/-- Each body of a method is. -/
theorem ItemsDerived.bodies_infix {p : Program} (h : ItemsDerived ArgsDerived w p.items) {m : Method}
    (hm : m ∈ p.methods) :
    ∀ body ∈ m.bodies, ∃ v, BodyDerived ArgsDerived v body ∧ v <:+: w := by
  intro body hbody
  obtain ⟨u, hu, hi⟩ := h.method_of_mem hm
  cases hu with
  | @method q b _ _ name s t o c o' c' hp hb =>
    obtain ⟨v, hv, hvb⟩ := hb.bodies_infix body hbody
    have hbu : b <:+: ⟨.keyDef, s⟩ :: ⟨.ident name, t⟩ :: ⟨.lparen 0, o⟩ :: q ++
        ⟨.rparen 0, c⟩ :: ⟨.lbrace 0, o'⟩ :: b ++ [⟨.rbrace 0, c'⟩] :=
      ⟨⟨.keyDef, s⟩ :: ⟨.ident name, t⟩ :: ⟨.lparen 0, o⟩ :: q ++ [⟨.rparen 0, c⟩, ⟨.lbrace 0, o'⟩],
        [⟨.rbrace 0, c'⟩], by simp⟩
    exact ⟨v, hv, (hvb.trans hbu).trans hi⟩

/-- Each statement of a method is. -/
theorem ItemsDerived.stmts_infix {p : Program} (h : ItemsDerived ArgsDerived w p.items) {m : Method}
    (hm : m ∈ p.methods) :
    ∀ s ∈ m.stmts, ∃ isOpen v, StmtDerived ArgsDerived isOpen v s ∧ v <:+: w := by
  intro s hs
  obtain ⟨body, hbody, hs⟩ := List.mem_flatten.mp hs
  obtain ⟨u, hu, hi⟩ := h.bodies_infix hm body hbody
  obtain ⟨isOpen, v, hv, hi'⟩ := hu.of_mem s hs
  exact ⟨isOpen, v, hv, hi'.trans hi⟩

/-- The name of a method and all its statements come from the tokens of the program. -/
theorem ItemsDerived.methods {p : Program} (h : ItemsDerived ArgsDerived w p.items) :
    ∀ m ∈ p.methods, m.name.From w ∧ ∀ s ∈ m.stmts, s.DerivedIn w := by
  intro m hm
  constructor
  · obtain ⟨v, hv, hi⟩ := h.method_of_mem hm
    cases hv with
    | @method _ _ _ _ name _ t _ _ _ _ hp hb =>
      exact ⟨⟨.ident name, t⟩, hi.subset (by simp), rfl, rfl⟩
  · intro s hs
    obtain ⟨isOpen, v, hv, hi⟩ := h.stmts_infix hm s hs
    exact ⟨isOpen, v, hv, hi.subset⟩

/-- A token that is written in a text at its place. -/
structure Lexeme.Stands (source : String) (l : Lexeme) : Prop where
  cuts : l.span.Cuts source
  text : l.span.slice source = l.token.text
  spelled : l.token.isSpelled = true

/-- A name that is written in a text at its place. -/
structure Name.Stands (source : String) (n : Name) : Prop where
  cuts : n.span.Cuts source
  text : n.span.slice source = n.text

theorem Name.From.stands {source : String} {n : Name} (h : n.From w)
    (hw : ∀ l ∈ w, l.Stands source) : n.Stands source := by
  obtain ⟨l, hl, ht, hs⟩ := h
  exact ⟨hs ▸ (hw l hl).cuts, by rw [← hs, ← ht, (hw l hl).text]⟩

/-- The place of a statement starts and ends between characters. -/
theorem Stmt.DerivedIn.cuts {source : String} {s : Stmt} (h : s.DerivedIn w)
    (hw : ∀ l ∈ w, l.Stands source) : s.span.Cuts source := by
  obtain ⟨isOpen, v, hd, hv⟩ := h
  have hafter : ∀ (v : List Lexeme) (last : Span), v ⊆ w → last.Cuts source →
      (spanAfter last v).Cuts source := by
    intro v
    induction v with
    | nil => exact fun last _ hlast => hlast
    | cons l v ih =>
      intro last hv _
      obtain ⟨hl, hv⟩ := List.cons_subset.mp hv
      exact ih l.span hv (hw l hl).cuts
  rw [hd.span_eq]
  cases v with
  | nil => exact absurd rfl hd.ne_nil
  | cons l v =>
    obtain ⟨hl, hv⟩ := List.cons_subset.mp hv
    exact (hw l hl).cuts.merge (hafter v l.span hv (hw l hl).cuts)

/-- A token of a text is written there, also without the depth of a bracket. -/
theorem Lexeme.Munched.stands_flat {source : String} {l : Lexeme} (h : l.Munched source) :
    l.flat.Stands source := by
  have htext : l.token.flat.text = l.token.text := by cases l.token <;> rfl
  exact ⟨h.cuts, h.text.trans htext.symm, by rw [Lexeme.flat, Token.isSpelled_flat, h.spelled]⟩

/-- A program that is read from a text is derived from all tokens that the text is cut into. -/
theorem Program.derived_of_tokenize {source : String} {tokens : List Lexeme} {p : Program}
    (ht : tokenize source = .ok tokens) (ho : ofTokens tokens = .ok p) :
    ∃ ts, tokens = ts ++ [⟨.eof, ⟨source.utf8ByteSize, source.utf8ByteSize⟩⟩] ∧
      Segmented source 0 (ts.map .ok) ∧ ItemsDerived ArgsDerived (ts.map Lexeme.flat) p.items := by
  obtain ⟨ts, rfl, hs⟩ := tokenize_segmented ht
  obtain ⟨c, hrun⟩ := run_of_ofTokens ho
  exact ⟨ts, rfl, hs, Parser.derived_of_run_program rfl hs.ne_eof hrun⟩

/-- A program that is read from a text is derived from tokens that are written there. -/
theorem Program.derived_of_ofTokens {source : String} {tokens : List Lexeme} {p : Program}
    (ht : tokenize source = .ok tokens) (ho : ofTokens tokens = .ok p) :
    ∃ w, (∀ l ∈ w, l.Stands source) ∧ ItemsDerived ArgsDerived w p.items := by
  obtain ⟨ts, -, hs, hd⟩ := derived_of_tokenize ht ho
  refine ⟨_, fun l hl => ?_, hd⟩
  obtain ⟨l, hmem, rfl⟩ := List.mem_map.mp hl
  exact (hs.munched l hmem).stands_flat

end ScriptGraph
