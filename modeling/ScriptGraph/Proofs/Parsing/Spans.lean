import ScriptGraph.Proofs.Compilation
import ScriptGraph.Proofs.Parsing.Places

/-!
# The places in a tree

The place of a name is that of its token. A statement has no token of its own: its place is made of
those of the first and the last token that were taken for it, when it has been read. The tokens of a
text stand one behind the other, and the statements of a tree are read from stretches of them that
follow the nesting of the tree. So the places of statements are nested and ordered as the statements
are.

* `InLine`, `Segmented.inLine` — tokens that stand one behind the other, as those of a text do;
* `InLine.cover_eq` — the place of some such tokens starts with the first and stops with the last;
* `BodyDerived.apart`, `StmtDerived.inside` — statements of a body, and those in a branch;
* `Program.writtenNames` — all names in a tree that have a place;
* `parse_spans` — the places in a program that was read from a text.
-/

namespace ScriptGraph

/-! ## Tokens in line -/

/-- A place that lies in another one. -/
def Span.Inside (outer span : Span) : Prop :=
  outer.start ≤ span.start ∧ span.stop ≤ outer.stop

/-- Tokens that stand one behind the other. -/
structure InLine (w : List Lexeme) : Prop where
  /-- no token stops before it starts -/
  proper : ∀ l ∈ w, l.span.start ≤ l.span.stop
  /-- each stops before the next ones start -/
  apart : w.Pairwise fun a b => a.span.stop ≤ b.span.start

section

variable {source : String} {offset : Nat} {ts w v : List Lexeme}

theorem Segmented.le_start (h : Segmented source offset (ts.map .ok)) :
    ∀ l ∈ ts, offset ≤ l.span.start := by
  induction ts generalizing offset with
  | nil => exact nofun
  | cons l ts ih =>
    cases h with
    | token hle _ hl hs =>
      have hlt := hl.cuts.lt
      refine List.forall_mem_cons.mpr ⟨hle, fun x hx => ?_⟩
      have hx := ih hs x hx
      omega

/-- The tokens of a text are in line. -/
theorem Segmented.inLine (h : Segmented source offset (ts.map .ok)) : InLine ts := by
  refine ⟨fun l hl => Nat.le_of_lt (h.munched l hl).cuts.lt, ?_⟩
  induction ts generalizing offset with
  | nil => exact .nil
  | cons l ts ih =>
    cases h with
    | token _ _ _ hs => exact List.pairwise_cons.mpr ⟨hs.le_start, ih hs⟩

theorem spanAfter_eq (l : Lexeme) (v : List Lexeme) :
    spanAfter l.span v = ((l :: v).getLast (List.cons_ne_nil l v)).span := by
  induction v generalizing l with
  | nil => rfl
  | cons l' v ih => exact ih l'

namespace InLine

theorem of_infix (h : InLine w) (hv : v <:+: w) : InLine v :=
  ⟨fun l hl => h.proper l (hv.subset hl), h.apart.sublist hv.sublist⟩

theorem flat (h : InLine w) : InLine (w.map Lexeme.flat) :=
  ⟨List.forall_mem_map.mpr h.proper, List.pairwise_map.mpr h.apart⟩

/-- The first token starts before all others. -/
theorem head_start_le (h : InLine w) (hne : w ≠ []) {l : Lexeme} (hl : l ∈ w) :
    (w.head hne).span.start ≤ l.span.start := by
  cases w with
  | nil => exact absurd rfl hne
  | cons x v =>
    rcases List.mem_cons.mp hl with rfl | hl
    · exact Nat.le_refl _
    · exact Nat.le_trans (h.proper x List.mem_cons_self) ((List.pairwise_cons.mp h.apart).1 l hl)

/-- The last token stops behind all others. -/
theorem stop_le_getLast (h : InLine w) (hne : w ≠ []) {l : Lexeme} (hl : l ∈ w) :
    l.span.stop ≤ (w.getLast hne).span.stop := by
  have hw := List.dropLast_concat_getLast hne
  have hapart := h.apart
  rw [← hw] at hl hapart
  rcases List.mem_append.mp hl with hl | hl
  · exact Nat.le_trans ((List.pairwise_append.mp hapart).2.2 l hl _ (List.mem_singleton_self _))
      (h.proper _ (List.getLast_mem hne))
  · rw [List.mem_singleton.mp hl]

/-- The place of tokens in line starts with the first one and stops with the last one. -/
theorem cover_eq (h : InLine w) (hne : w ≠ []) :
    cover w = ⟨(w.head hne).span.start, (w.getLast hne).span.stop⟩ := by
  have hstart := h.head_start_le hne (List.getLast_mem hne)
  have hstop := h.stop_le_getLast hne (List.head_mem hne)
  cases w with
  | nil => exact absurd rfl hne
  | cons l v =>
    rw [List.head_cons] at hstart hstop ⊢
    rw [cover, spanAfter_eq, Span.merge, Nat.min_eq_left hstart, Nat.max_eq_right hstop]

/-- Some of the tokens have their place inside of that of all. -/
theorem cover_inside (h : InLine w) (hv : v <:+: w) (hne : v ≠ []) :
    (cover w).Inside (cover v) := by
  have hw : w ≠ [] := fun hw => hne (List.eq_nil_of_infix_nil (hw ▸ hv))
  rw [h.cover_eq hw, (h.of_infix hv).cover_eq hne]
  exact ⟨h.head_start_le hw (hv.subset (List.head_mem hne)),
    h.stop_le_getLast hw (hv.subset (List.getLast_mem hne))⟩

end InLine

/-! ## Statements -/

/-- A statement of which it is known which tokens it was read from: a stretch of some tokens, and its
place starts with the first one of them and stops with the last one. -/
def Stmt.Spans (ts : List Lexeme) (s : Stmt) : Prop :=
  ∃ isOpen w first last, w <:+: ts ∧ StmtDerived ArgsDerived isOpen (w.map Lexeme.flat) s ∧
    w.head? = some first ∧ w.getLast? = some last ∧ s.span = ⟨first.span.start, last.span.stop⟩

theorem StmtDerived.spans {isOpen : Bool} {s : Stmt} (h : StmtDerived ArgsDerived isOpen v s)
    (hv : v <:+: ts.map Lexeme.flat) (hts : InLine ts) : s.Spans ts := by
  obtain ⟨w, hw, rfl⟩ := List.infix_map_iff.mp hv
  have hne : w ≠ [] := by
    rintro rfl
    exact absurd rfl h.ne_nil
  refine ⟨isOpen, w, w.head hne, w.getLast hne, hw, h, List.head?_eq_some_head hne,
    List.getLast?_eq_some_getLast hne, ?_⟩
  rw [h.span_eq, (hts.of_infix hw).flat.cover_eq h.ne_nil, List.head_map, List.getLast_map]
  rfl

/-- The statements of a body stand one behind the other. -/
theorem BodyDerived.apart {w : List Lexeme} {body : List Stmt} :
    BodyDerived ArgsDerived w body → InLine w →
      body.Pairwise fun s s' => s.span.stop ≤ s'.span.start
  | .nil, _ => .nil
  | @BodyDerived.cons _ _ u v s body h hs, hw => by
    have hu := hw.of_infix (List.prefix_append u v).isInfix
    have hv := hw.of_infix (List.suffix_append u v).isInfix
    refine List.pairwise_cons.mpr ⟨fun s' hs' => ?_, hs.apart hv⟩
    obtain ⟨_, v', hd, hi⟩ := hs.of_mem s' hs'
    -- the first one stops with a token of `u`, the other one starts with a token of `v`
    rw [h.span_eq, hd.span_eq, hu.cover_eq h.ne_nil, (hv.of_infix hi).cover_eq hd.ne_nil]
    exact (List.pairwise_append.mp hw.apart).2.2 _ (List.getLast_mem h.ne_nil) _
      (hi.subset (List.head_mem hd.ne_nil))

/-- The statements in the branches of a statement stand inside of it. -/
theorem StmtDerived.inside {isOpen : Bool} {s : Stmt} (h : StmtDerived ArgsDerived isOpen w s)
    (hw : InLine w) : ∀ body ∈ s.bodies, ∀ x ∈ body, s.span.Inside x.span := by
  intro body hbody x hx
  obtain ⟨u, hu, hi⟩ := h.bodies_infix body hbody
  obtain ⟨_, u', hx, hi'⟩ := hu.of_mem x hx
  rw [h.span_eq, hx.span_eq]
  exact hw.cover_inside (hi'.trans hi) hx.ne_nil

end

/-! ## Names -/

/-- The names of a statement, without those in its branches: the one that it gives a value, and those
in its expressions. -/
def Stmt.writtenNames (s : Stmt) : List Name :=
  s.target?.toList ++ Expr.argsNames s.exprs

/-- The names of a method: its own, those of its parameters, and those of its statements. -/
def Method.writtenNames (m : Method) : List Name :=
  m.name :: m.params.map (·.name) ++ m.stmts.flatMap Stmt.writtenNames

/-- The names of a program: those of its variables and those of its methods. -/
def Program.writtenNames (p : Program) : List Name :=
  p.globals.map (·.name) ++ p.methods.flatMap Method.writtenNames

section

variable {w : List Lexeme}

/-- The names of a derived statement are spelled by its tokens. -/
theorem StmtDerived.names_from {isOpen : Bool} {s : Stmt}
    (h : StmtDerived ArgsDerived isOpen w s) : ∀ n ∈ s.writtenNames, n.From w := by
  intro n hn
  rcases List.mem_append.mp hn with hn | hn
  · exact h.target_from n (by simpa using hn)
  · obtain ⟨e, he, hn⟩ := Expr.mem_argsNames.mp hn
    have hparts : e ∈ Expr.argsParts s.exprs := Expr.mem_argsParts.mpr ⟨e, he, e.mem_parts_self⟩
    exact (h.exprs_derivedIn e hparts).names_from n hn

/-- So are those of parameters. -/
theorem ParamListDerived.names_from {params : List Parameter} (h : ParamListDerived w params) :
    ∀ q ∈ params, q.name.From w := by
  induction h with
  | @one type name s t =>
    intro q hq
    obtain rfl := List.mem_singleton.mp hq
    exact ⟨⟨.ident name, t⟩, by simp, rfl, rfl⟩
  | @more type name s t k w params h ih =>
    refine List.forall_mem_cons.mpr ⟨⟨⟨.ident name, t⟩, by simp, rfl, rfl⟩, fun q hq => ?_⟩
    exact (ih q hq).mono (by intro l; simp +contextual)

/-- So are all names of a program. -/
theorem ItemsDerived.names_from {p : Program} (h : ItemsDerived ArgsDerived w p.items) :
    ∀ n ∈ p.writtenNames, n.From w := by
  intro n hn
  rcases List.mem_append.mp hn with hn | hn
  · obtain ⟨d, hd, rfl⟩ := List.mem_map.mp hn
    obtain ⟨item, hmem, hitem⟩ := List.mem_filterMap.mp hd
    cases item with
    | method m => cases hitem
    | globalVar d' =>
      cases hitem
      obtain ⟨v, hv, hi⟩ := h.of_mem _ hmem
      cases hv with
      | @globalVar type name s t e => exact ⟨⟨.ident name, t⟩, hi.subset (by simp), rfl, rfl⟩
  · obtain ⟨m, hm, hn⟩ := List.mem_flatMap.mp hn
    rcases List.mem_append.mp hn with hn | hn
    · rcases List.mem_cons.mp hn with rfl | hn
      · exact (h.methods m hm).1
      · obtain ⟨q, hq, rfl⟩ := List.mem_map.mp hn
        obtain ⟨v, hv, hi⟩ := h.method_of_mem hm
        cases hv with
        | method hp hb =>
          cases hp with
          | none => cases hq
          | some hp =>
            exact (hp.names_from q hq).mono (List.Subset.trans (by intro l; simp +contextual) hi.subset)
    · obtain ⟨s, hs, hn⟩ := List.mem_flatMap.mp hn
      obtain ⟨isOpen, v, hv, hsub⟩ := (h.methods m hm).2 s hs
      exact (hv.names_from n hn).mono hsub

end

/-! ## Programs -/

/-- **Places are faithful.** Take a source that is a program. Every name in its tree is what stands in
the text at its place. Every statement was read from a stretch of the tokens of the text, and its
place starts with the first of them and stops with the last. The statements of a body stand one behind
the other, and those in a branch inside of the statement that has the branch. -/
theorem parse_spans {source : String} {p : Program} (h : Program.parse source = .ok p) :
    (∀ n ∈ p.writtenNames, n.Stands source) ∧
      ∃ ts, tokenize source = .ok (ts ++ [⟨.eof, ⟨source.utf8ByteSize, source.utf8ByteSize⟩⟩]) ∧
        ∀ m ∈ p.methods,
          (∀ s ∈ m.stmts, s.span.Cuts source ∧ s.Spans ts) ∧
          (∀ body ∈ m.bodies, body.Pairwise fun s s' => s.span.stop ≤ s'.span.start) ∧
          ∀ s ∈ m.stmts, ∀ body ∈ s.bodies, ∀ x ∈ body, s.span.Inside x.span := by
  obtain ⟨tokens, ht, ho, -⟩ := Program.parse_eq_ok.mp h
  obtain ⟨ts, rfl, hs, hd⟩ := Program.derived_of_tokenize ht ho
  have hstand : ∀ l ∈ ts.map Lexeme.flat, l.Stands source :=
    List.forall_mem_map.mpr fun l hl => (hs.munched l hl).stands_flat
  have hline := hs.inLine
  refine ⟨fun n hn => (hd.names_from n hn).stands hstand, ts, ht, fun m hm => ⟨?_, ?_, ?_⟩⟩
  · intro s hs
    obtain ⟨isOpen, v, hv, hi⟩ := hd.stmts_infix hm s hs
    exact ⟨((hd.methods m hm).2 s hs).cuts hstand, hv.spans hi hline⟩
  · intro body hbody
    obtain ⟨u, hu, hi⟩ := hd.bodies_infix hm body hbody
    exact hu.apart (hline.flat.of_infix hi)
  · intro s hs
    obtain ⟨isOpen, v, hv, hi⟩ := hd.stmts_infix hm s hs
    exact hv.inside (hline.flat.of_infix hi)

/-- A source with branches in braces and without, and with blanks of more than one byte. -/
def spacedChoices : String :=
  "def Main(bool c, float x) \x7b\u2003if (c) if (x > 1) x = 2; " ++
    "else \x7b x++;\u2003x = x - 1; \x7d return(x); \x7d"

/-- In `spacedChoices` the outer choice ends with the brace that ends the inner one, since the `else`
belongs to the inner one, and all that is nested lies inside. -/
theorem parse_spans_spacedChoices :
    ∃ p, Program.parse spacedChoices = .ok p ∧
      p.writtenNames.map (·.text) = ["Main", "c", "x", "c", "x", "x", "x", "x", "x", "x"] ∧
      (∀ n ∈ p.writtenNames, n.span.slice spacedChoices = n.text) ∧
      p.methods.map (fun m => m.stmts.map (·.span)) =
        [[⟨30, 81⟩, ⟨82, 92⟩, ⟨37, 81⟩, ⟨48, 54⟩, ⟨62, 66⟩, ⟨69, 79⟩]] ∧
      ∀ m ∈ p.methods,
        (∀ body ∈ m.bodies, body.Pairwise fun s s' => s.span.stop ≤ s'.span.start) ∧
        ∀ s ∈ m.stmts, ∀ body ∈ s.bodies, ∀ x ∈ body, s.span.Inside x.span := by
  have hread : (Program.parse spacedChoices).toOption.map (fun p =>
      (p.writtenNames.map (·.text), p.methods.map fun m => m.stmts.map (·.span))) =
      some (["Main", "c", "x", "c", "x", "x", "x", "x", "x", "x"],
        [[⟨30, 81⟩, ⟨82, 92⟩, ⟨37, 81⟩, ⟨48, 54⟩, ⟨62, 66⟩, ⟨69, 79⟩]]) := by
    decide +kernel
  rcases hp : Program.parse spacedChoices with e | p
  · simp [hp, Except.toOption] at hread
  · simp only [hp, Except.toOption, Option.map_some, Option.some.injEq, Prod.mk.injEq] at hread
    obtain ⟨hnames, ts, -, hall⟩ := parse_spans hp
    exact ⟨p, rfl, hread.1, fun n hn => (hnames n hn).text, hread.2, fun m hm => (hall m hm).2⟩

end ScriptGraph
