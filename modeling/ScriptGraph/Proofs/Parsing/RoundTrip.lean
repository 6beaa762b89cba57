import ScriptGraph.Proofs.Compilation
import ScriptGraph.Proofs.Parsing.Prefix
import ScriptGraph.Proofs.Parsing.Rendering

/-!
# Reading what was written

The tokens of a written tree are derived by the grammar, with a tree that differs only in its places
(`ExprWritten.derived`, `StmtWritten.derived`, `ItemsWritten.derived`). Since a derived program is read
and a text of tokens is scanned as these, reading a text of a program gives the program back
(`Program.parse_of_renders`).

Conversely all that the grammar derives from spelled tokens can be written (`ExprDerived.writable` and its
like), and scanned tokens are spelled. So the programs that can be written are those that are read, up to
places (`Program.writable_of_parse`).
-/

namespace ScriptGraph

/-! ## Places for tokens -/

/-- A word consists of some tokens, at any places. -/
def Places (w : List Lexeme) (ts : List Token) : Prop :=
  w.map Lexeme.token = ts.map Token.flat

namespace Places

variable {w : List Lexeme} {t : Token} {ts us : List Token}

@[simp] theorem nil : Places w [] ↔ w = [] := by
  simp [Places]

@[simp] theorem cons : Places w (t :: ts) ↔ ∃ s v, w = ⟨t.flat, s⟩ :: v ∧ Places v ts := by
  constructor
  · intro h
    obtain ⟨⟨t', s⟩, v, rfl, rfl, hv⟩ := List.map_eq_cons_iff.mp h
    exact ⟨s, v, rfl, hv⟩
  · rintro ⟨s, v, rfl, hv⟩
    exact congrArg (t.flat :: ·) hv

@[simp] theorem append : Places w (ts ++ us) ↔ ∃ u v, w = u ++ v ∧ Places u ts ∧ Places v us := by
  rw [Places, List.map_append]
  exact List.map_eq_append_iff

end Places

/-! ## Expressions -/

/-- An expression may use operators that are looser than those it has. -/
theorem ExprDerived.loosen {strata : List Stratum} {w : List Lexeme} {e : Expr} {i j : Nat}
    (hij : i ≤ j) (h : ExprDerived (strata.drop j) w e) : ExprDerived (strata.drop i) w e := by
  induction hij with
  | refl => exact h
  | @step m _ ih =>
    -- One stratum more stands in front, unless all of them are gone.
    apply ih
    rw [← List.tail_drop] at h
    rcases hd : strata.drop m with _ | ⟨stratum, rest⟩ <;> rw [hd] at h
    · exact h
    · exact .operand h

namespace BinaryOp

theorem flat_token (op : BinaryOp) : op.token.flat = op.token := by
  cases op <;> rfl

/-- The stratum of an operator, before all that are tighter. -/
theorem exists_stratum (op : BinaryOp) :
    ∃ stratum : Stratum, Stratum.all.drop op.strength = stratum :: Stratum.all.drop (op.strength + 1) ∧
      stratum op.token = some op := by
  cases op <;> exact ⟨_, rfl, rfl⟩

end BinaryOp

/-- An operator between operands that are tight enough for it. -/
theorem ExprDerived.operator {op : BinaryOp} {u v : List Lexeme} {left right : Expr} {i j : Nat}
    {s : Span} (hl : ExprDerived (Stratum.all.drop i) u left)
    (hr : ExprDerived (Stratum.all.drop j) v right) (hi : op.strength ≤ i) (hj : op.strength < j) :
    ExprDerived (Stratum.all.drop op.strength) (u ++ ⟨op.token, s⟩ :: v) (.binary op left right) := by
  obtain ⟨stratum, hdrop, hop⟩ := op.exists_stratum
  rw [hdrop]
  exact .binary (hdrop ▸ hl.loosen hi) hop (hr.loosen hj)

mutual

/-- The tokens of a written expression are derived by the grammar. -/
theorem ExprWritten.derived {k : Nat} {ts : List Token} {e : Expr} {w : List Lexeme} :
    ExprWritten k ts e → Places w ts →
      ∃ e', ExprDerived (Stratum.all.drop k) w e' ∧ e'.map .unplaced = e.map .unplaced
  | .number _ hv, hw => by
    simp only [Places.cons, Places.nil] at hw
    obtain ⟨s, _, rfl, rfl⟩ := hw
    exact ⟨_, .number hv, rfl⟩
  | .var, hw => by
    simp only [Places.cons, Places.nil] at hw
    obtain ⟨s, _, rfl, rfl⟩ := hw
    exact ⟨_, .var, rfl⟩
  | .neg h, hw => by
    obtain ⟨s, v, rfl, hv⟩ := Places.cons.mp hw
    obtain ⟨e', hd, he⟩ := h.derived hv
    exact ⟨_, .neg hd, congrArg Expr.neg he⟩
  | .not h, hw => by
    obtain ⟨s, v, rfl, hv⟩ := Places.cons.mp hw
    obtain ⟨e', hd, he⟩ := h.derived hv
    exact ⟨_, .not hd, congrArg Expr.not he⟩
  | .group h, hw => by
    simp only [List.cons_append, Places.cons, Places.append, Places.nil] at hw
    obtain ⟨o, _, rfl, v, _, rfl, hv, c, _, rfl, rfl⟩ := hw
    obtain ⟨e', hd, he⟩ := h.derived hv
    exact ⟨e', .group (hd.loosen (Nat.zero_le _)), he⟩
  | .binary hl hr hi hj, hw => by
    simp only [Places.cons, Places.append, BinaryOp.flat_token] at hw
    obtain ⟨u, _, rfl, hu, s, v, rfl, hv⟩ := hw
    obtain ⟨left', hdl, hel⟩ := hl.derived hu
    obtain ⟨right', hdr, her⟩ := hr.derived hv
    exact ⟨_, .operator hdl hdr hi hj, by rw [Expr.map, Expr.map, hel, her]⟩
  | .construct h, hw => by
    simp only [List.cons_append, Places.cons, Places.append, Places.nil] at hw
    obtain ⟨s, _, rfl, t, _, rfl, o, _, rfl, v, _, rfl, hv, c, _, rfl, rfl⟩ := hw
    obtain ⟨args', hd, he⟩ := h.derived hv
    exact ⟨_, .construct hd, by rw [Expr.map, Expr.map, he]; rfl⟩
  | .call h, hw => by
    simp only [List.cons_append, Places.cons, Places.append, Places.nil] at hw
    obtain ⟨r, _, rfl, d, _, rfl, m, _, rfl, o, _, rfl, v, _, rfl, hv, c, _, rfl, rfl⟩ := hw
    obtain ⟨args', hd, he⟩ := h.derived hv
    exact ⟨_, .call hd, by rw [Expr.map, Expr.map, he]; rfl⟩

theorem ArgListWritten.derived {ts : List Token} {es : List Expr} {w : List Lexeme} :
    ArgListWritten ts es → Places w ts →
      ∃ es', ArgListDerived w es' ∧ Expr.mapArgs .unplaced es' = Expr.mapArgs .unplaced es
  | .one h, hw => by
    obtain ⟨e', hd, he⟩ := h.derived hw
    exact ⟨[e'], .one (hd.loosen (Nat.zero_le _)), congrArg ([·]) he⟩
  | .more h hs, hw => by
    simp only [Places.cons, Places.append] at hw
    obtain ⟨u, _, rfl, hu, s, v, rfl, hv⟩ := hw
    obtain ⟨e', hd, he⟩ := h.derived hu
    obtain ⟨es', hds, hes⟩ := hs.derived hv
    refine ⟨_, .more (hd.loosen (Nat.zero_le _)) hds, ?_⟩
    rw [Expr.mapArgs, Expr.mapArgs, he, hes]

theorem ArgsWritten.derived {ts : List Token} {es : List Expr} {w : List Lexeme} :
    ArgsWritten ts es → Places w ts →
      ∃ es', ArgsDerived w es' ∧ Expr.mapArgs .unplaced es' = Expr.mapArgs .unplaced es
  | .none, hw => by
    obtain rfl := Places.nil.mp hw
    exact ⟨[], .none, rfl⟩
  | .some h, hw => by
    obtain ⟨es', hd, he⟩ := h.derived hw
    exact ⟨es', .some hd, he⟩
  | .trailing h, hw => by
    simp only [Places.cons, Places.append, Places.nil] at hw
    obtain ⟨u, _, rfl, hu, k, _, rfl, rfl⟩ := hw
    obtain ⟨es', hd, he⟩ := h.derived hu
    exact ⟨es', .trailing hd, he⟩

end

/-! ## Statements -/

theorem AssignOp.map_tokens {op : AssignOp} {w : List Lexeme} (h : Places w op.tokens) :
    w.map Lexeme.token = op.tokens := by
  rw [show w.map Lexeme.token = op.tokens.map Token.flat from h]
  cases op <;> rfl

mutual

/-- The tokens of a written statement are derived by the grammar. -/
theorem StmtWritten.derived {ts : List Token} {s : Stmt} {w : List Lexeme} :
    StmtWritten ts s → Places w ts →
      ∃ isOpen s', StmtDerived ArgsDerived isOpen w s' ∧ s'.map .unplaced = s.map .unplaced
  | .declare, hw => by
    simp only [Places.cons, Places.nil] at hw
    obtain ⟨s, _, rfl, t, _, rfl, e, _, rfl, rfl⟩ := hw
    exact ⟨_, _, .declare rfl, rfl⟩
  | .declareAs h, hw => by
    simp only [List.cons_append, Places.cons, Places.append, Places.nil] at hw
    obtain ⟨s, _, rfl, t, _, rfl, a, _, rfl, v, _, rfl, hv, e, _, rfl, rfl⟩ := hw
    obtain ⟨init', hd, he⟩ := h.derived hv
    refine ⟨_, _, .declareAs (hd.loosen (Nat.zero_le _)) rfl, ?_⟩
    simp [Stmt.map, Declaration.map, Name.unplaced, he]
  | .publish, hw => by
    simp only [Places.cons, Places.nil] at hw
    obtain ⟨s, _, rfl, p, _, rfl, t, _, rfl, e, _, rfl, rfl⟩ := hw
    exact ⟨_, _, .publish rfl, rfl⟩
  | .step ho, hw => by
    simp only [List.cons_append, Places.cons, Places.append, Places.nil] at hw
    obtain ⟨s, _, rfl, marks, _, rfl, hm, e, _, rfl, rfl⟩ := hw
    exact ⟨_, _, .step ho (AssignOp.map_tokens hm) rfl, rfl⟩
  | .assign ho h, hw => by
    simp only [List.cons_append, Places.cons, Places.append, Places.nil] at hw
    obtain ⟨s, _, rfl, _, _, rfl, ⟨marks, v, rfl, hm, hv⟩, e, _, rfl, rfl⟩ := hw
    obtain ⟨value', hd, he⟩ := h.derived hv
    refine ⟨_, _, .assign ho (AssignOp.map_tokens hm) (hd.loosen (Nat.zero_le _)) rfl, ?_⟩
    rw [Stmt.map, Stmt.map, he]
    rfl
  | .call h, hw => by
    simp only [List.cons_append, Places.cons, Places.append, Places.nil] at hw
    obtain ⟨r, _, rfl, d, _, rfl, m, _, rfl, o, _, rfl, a, _, rfl, ha, c, _, rfl, e, _, rfl, rfl⟩ := hw
    obtain ⟨args', hd, he⟩ := h.derived ha
    refine ⟨_, _, .call hd rfl, ?_⟩
    rw [Stmt.map, Stmt.map, he]
    rfl
  | .ret h, hw => by
    simp only [List.cons_append, Places.cons, Places.append, Places.nil] at hw
    obtain ⟨s, _, rfl, o, _, rfl, a, _, rfl, ha, c, _, rfl, e, _, rfl, rfl⟩ := hw
    obtain ⟨values', hd, he⟩ := h.derived ha
    refine ⟨_, _, .ret hd rfl, ?_⟩
    rw [Stmt.map, Stmt.map, he]
    rfl
  | .choose ht hb, hw => by
    simp only [List.cons_append, Places.cons, Places.append, Places.nil] at hw
    obtain ⟨s, _, rfl, o, _, rfl, t, _, rfl, hwt, c, _, rfl, o', _, rfl, b, _, rfl, hwb, c', _, rfl,
      rfl⟩ := hw
    obtain ⟨test', hdt, het⟩ := ht.derived hwt
    obtain ⟨body', hdb, heb⟩ := hb.derived hwb
    refine ⟨_, _, .choose (hdt.loosen (Nat.zero_le _)) (.block hdb) rfl, ?_⟩
    rw [Stmt.map, Stmt.map, het, heb]
    rfl
  | .chooseElse ht hb he, hw => by
    simp only [List.cons_append, Places.cons, Places.append, Places.nil] at hw
    obtain ⟨s, _, rfl, o, _, rfl, _, _, rfl, ⟨t, _, rfl, hwt, c, _, rfl, o', _, rfl, b, _, rfl, hwb, c', _,
      rfl, rfl⟩, k, _, rfl, o'', _, rfl, b', _, rfl, hwe, c'', _, rfl, rfl⟩ := hw
    obtain ⟨test', hdt, het⟩ := ht.derived hwt
    obtain ⟨thenBody', hdb, heb⟩ := hb.derived hwb
    obtain ⟨elseBody', hde, hee⟩ := he.derived hwe
    refine ⟨_, _, .chooseElse (hdt.loosen (Nat.zero_le _)) (.block hdb) (.block hde) rfl, ?_⟩
    rw [Stmt.map, Stmt.map, Stmt.mapElse, Stmt.mapElse, het, heb, hee]
    rfl

theorem BodyWritten.derived {ts : List Token} {body : List Stmt} {w : List Lexeme} :
    BodyWritten ts body → Places w ts →
      ∃ body', BodyDerived ArgsDerived w body' ∧
        Stmt.mapBody .unplaced body' = Stmt.mapBody .unplaced body
  | .nil, hw => by
    obtain rfl := Places.nil.mp hw
    exact ⟨[], .nil, rfl⟩
  | .cons h hs, hw => by
    obtain ⟨u, v, rfl, hu, hv⟩ := Places.append.mp hw
    obtain ⟨_, s', hd, he⟩ := h.derived hu
    obtain ⟨body', hds, hes⟩ := hs.derived hv
    exact ⟨_, .cons hd hds, by rw [Stmt.mapBody, Stmt.mapBody, he, hes]⟩

end

/-! ## Programs -/

theorem ParamListWritten.derived {ts : List Token} {params : List Parameter}
    (h : ParamListWritten ts params) {w : List Lexeme} (hw : Places w ts) :
    ∃ params', ParamListDerived w params' ∧
      params'.map (Parameter.map .unplaced) = params.map (Parameter.map .unplaced) := by
  induction h generalizing w with
  | one =>
    simp only [Places.cons, Places.nil] at hw
    obtain ⟨s, _, rfl, t, _, rfl, rfl⟩ := hw
    exact ⟨_, .one, rfl⟩
  | @more p _ _ _ ih =>
    simp only [Places.cons] at hw
    obtain ⟨s, _, rfl, t, _, rfl, k, v, rfl, hv⟩ := hw
    obtain ⟨params', hd, he⟩ := ih hv
    exact ⟨_, .more hd, congrArg (p.map .unplaced :: ·) he⟩

theorem ParamsWritten.derived {ts : List Token} {params : List Parameter} {w : List Lexeme} :
    ParamsWritten ts params → Places w ts →
      ∃ params', ParamsDerived w params' ∧
        params'.map (Parameter.map .unplaced) = params.map (Parameter.map .unplaced)
  | .none, hw => by
    obtain rfl := Places.nil.mp hw
    exact ⟨[], .none, rfl⟩
  | .some h, hw => by
    obtain ⟨params', hd, he⟩ := h.derived hw
    exact ⟨params', .some hd, he⟩

theorem ItemWritten.derived {ts : List Token} {item : Item} {w : List Lexeme} :
    ItemWritten ts item → Places w ts →
      ∃ item', ItemDerived ArgsDerived w item' ∧ item'.map .unplaced = item.map .unplaced
  | .method hp hb, hw => by
    simp only [List.cons_append, Places.cons, Places.append, Places.nil] at hw
    obtain ⟨s, _, rfl, t, _, rfl, o, _, rfl, _, _, rfl, ⟨p, _, rfl, hwp, c, _, rfl, o', b, rfl, hwb⟩,
      c', _, rfl, rfl⟩ := hw
    obtain ⟨params', hdp, hep⟩ := hp.derived hwp
    obtain ⟨body', hdb, heb⟩ := hb.derived hwb
    exact ⟨_, .method hdp hdb, by simp only [Item.map, Method.map, hep, heb]; rfl⟩
  | .globalVar, hw => by
    simp only [Places.cons, Places.nil] at hw
    obtain ⟨s, _, rfl, t, _, rfl, e, _, rfl, rfl⟩ := hw
    exact ⟨_, .globalVar, rfl⟩

/-- The tokens of a written program are derived by the grammar. -/
theorem ItemsWritten.derived {ts : List Token} {items : List Item} (h : ItemsWritten ts items)
    {w : List Lexeme} (hw : Places w ts) :
    ∃ items', ItemsDerived ArgsDerived w items' ∧
      items'.map (Item.map .unplaced) = items.map (Item.map .unplaced) := by
  induction h generalizing w with
  | nil =>
    obtain rfl := Places.nil.mp hw
    exact ⟨[], .nil, rfl⟩
  | cons h _ ih =>
    obtain ⟨u, v, rfl, hu, hv⟩ := Places.append.mp hw
    obtain ⟨item', hd, he⟩ := h.derived hu
    obtain ⟨items', hds, hes⟩ := ih hv
    exact ⟨_, .cons hd hds, by rw [List.map_cons, List.map_cons, he, hes]⟩

/-! ## What is read can be written -/

/-- Every token of a word is spelled. -/
def AllSpelled (w : List Lexeme) : Prop :=
  ∀ l ∈ w, l.token.isSpelled = true

theorem isNumeral_fraction {digits : String} (h : isNumeral digits.toList = true) :
    isNumeral ("0." ++ digits).toList = true := by
  rw [String.toList_append]
  rcases hd : digits.toList with _ | ⟨c, cs⟩ <;> rw [hd] at h
  · cases h
  · obtain ⟨hc, hcs⟩ := Bool.and_eq_true_iff.mp h
    simpa [isNumeral, Scanner.isNumberChar, hc] using hcs

mutual

/-- An expression that the grammar derives from spelled tokens can be written. -/
theorem ExprDerived.writable {strata : List Stratum} {w : List Lexeme} {e : Expr} :
    ExprDerived strata w e → AllSpelled w → e.Writable
  | .operand h, hw => h.writable hw
  | .binary hl _ hr, hw =>
    ⟨hl.writable fun l hl => hw l (by simp [hl]), hr.writable fun l hl => hw l (by simp [hl])⟩
  | .number hv, hw => ⟨_, hw _ List.mem_cons_self, hv⟩
  | @ExprDerived.fraction digits _ _ t hv, hw =>
    ⟨"0." ++ digits, isNumeral_fraction (hw ⟨.number digits, t⟩ (by simp)), hv⟩
  | .group h, hw => h.writable fun l hl => hw l (by simp [hl])
  | @ExprDerived.var text s, hw => hw ⟨.ident text, s⟩ (by simp)
  | .neg h, hw => h.writable fun l hl => hw l (by simp [hl])
  | .not h, hw => h.writable fun l hl => hw l (by simp [hl])
  | @ExprDerived.construct _ _ type _ t _ _ h, hw =>
    ⟨hw ⟨.typeName type, t⟩ (by simp), h.writable fun l hl => hw l (by simp [hl])⟩
  | @ExprDerived.call _ _ receiver member r _ m _ _ h, hw =>
    ⟨hw ⟨.qualifier receiver, r⟩ (by simp), hw ⟨.ident member, m⟩ (by simp),
      h.writable fun l hl => hw l (by simp [hl])⟩

theorem ArgListDerived.writable {w : List Lexeme} {es : List Expr} :
    ArgListDerived w es → AllSpelled w → Expr.ArgsWritable es
  | .one h, hw => ⟨h.writable hw, trivial⟩
  | .more h hs, hw =>
    ⟨h.writable fun l hl => hw l (by simp [hl]), hs.writable fun l hl => hw l (by simp [hl])⟩

theorem ArgsDerived.writable {w : List Lexeme} {es : List Expr} :
    ArgsDerived w es → AllSpelled w → Expr.ArgsWritable es
  | .none, _ => trivial
  | .some h, hw => h.writable hw
  | .trailing h, hw => h.writable fun l hl => hw l (by simp [hl])

end

mutual

/-- So can a statement. -/
theorem StmtDerived.writable {isOpen : Bool} {w : List Lexeme} {s : Stmt} :
    StmtDerived ArgsDerived isOpen w s → AllSpelled w → s.Writable
  | @StmtDerived.declare _ _ type name s t _ h, hw =>
    ⟨hw ⟨.typeName type, s⟩ (by simp [h]), hw ⟨.ident name, t⟩ (by simp [h]), nofun, nofun⟩
  | @StmtDerived.declareAs _ _ _ type name init s t _ _ hv h, hw =>
    have hinit : init.Writable := hv.writable fun l hl => hw l (by simp [h, hl])
    ⟨hw ⟨.typeName type, s⟩ (by simp [h]), hw ⟨.ident name, t⟩ (by simp [h]), by simpa using hinit, nofun⟩
  | @StmtDerived.publish _ _ type name _ p t _ h, hw =>
    ⟨hw ⟨.typeName type, p⟩ (by simp [h]), hw ⟨.ident name, t⟩ (by simp [h]), nofun, fun _ => rfl⟩
  | @StmtDerived.step _ _ _ name _ s _ hs _ h, hw =>
    ⟨hw ⟨.ident name, s⟩ (by simp [h]), by simp [hs]⟩
  | @StmtDerived.assign _ _ _ _ name _ value s _ hs _ hv h, hw =>
    have hvalue : value.Writable := hv.writable fun l hl => hw l (by simp [h, hl])
    ⟨hw ⟨.ident name, s⟩ (by simp [h]), by simpa [hs] using hvalue⟩
  | @StmtDerived.call _ _ _ _ receiver member r _ m _ _ _ ha h, hw =>
    ⟨hw ⟨.qualifier receiver, r⟩ (by simp [h]), hw ⟨.ident member, m⟩ (by simp [h]),
      ha.writable fun l hl => hw l (by simp [h, hl])⟩
  | .ret ha h, hw => ha.writable fun l hl => hw l (by simp [h, hl])
  | .choose ht hb h, hw =>
    ⟨ht.writable fun l hl => hw l (by simp [h, hl]), hb.writable fun l hl => hw l (by simp [h, hl]),
      trivial⟩
  | .chooseElse ht hb he h, hw =>
    ⟨ht.writable fun l hl => hw l (by simp [h, hl]), hb.writable fun l hl => hw l (by simp [h, hl]),
      he.writable fun l hl => hw l (by simp [h, hl])⟩

theorem BranchDerived.writable {isOpen : Bool} {w : List Lexeme} {body : List Stmt} :
    BranchDerived ArgsDerived isOpen w body → AllSpelled w → Stmt.BodyWritable body
  | .block h, hw => h.writable fun l hl => hw l (by simp [hl])
  | .single h, hw => ⟨h.writable hw, trivial⟩

theorem BodyDerived.writable {w : List Lexeme} {body : List Stmt} :
    BodyDerived ArgsDerived w body → AllSpelled w → Stmt.BodyWritable body
  | .nil, _ => trivial
  | .cons h hs, hw =>
    ⟨h.writable fun l hl => hw l (by simp [hl]), hs.writable fun l hl => hw l (by simp [hl])⟩

end

theorem ParamListDerived.writable {w : List Lexeme} {params : List Parameter}
    (h : ParamListDerived w params) (hw : AllSpelled w) : ∀ p ∈ params, p.Writable := by
  induction h with
  | @one type name s t =>
    exact List.forall_mem_singleton.mpr ⟨hw ⟨.typeName type, s⟩ (by simp), hw ⟨.ident name, t⟩ (by simp)⟩
  | @more type name s t _ _ _ _ ih =>
    refine List.forall_mem_cons.mpr ⟨⟨hw ⟨.typeName type, s⟩ (by simp), hw ⟨.ident name, t⟩ (by simp)⟩, ?_⟩
    exact ih fun l hl => hw l (by simp [hl])

theorem ParamsDerived.writable {w : List Lexeme} {params : List Parameter} :
    ParamsDerived w params → AllSpelled w → ∀ p ∈ params, p.Writable
  | .none, _ => nofun
  | .some h, hw => h.writable hw

theorem ItemDerived.writable {w : List Lexeme} {item : Item} :
    ItemDerived ArgsDerived w item → AllSpelled w → item.Writable
  | @ItemDerived.method _ _ _ _ _ name _ t _ _ _ _ hp hb, hw =>
    ⟨hw ⟨.ident name, t⟩ (by simp), hp.writable fun l hl => hw l (by simp [hl]),
      hb.writable fun l hl => hw l (by simp [hl])⟩
  | @ItemDerived.globalVar _ type name s t _, hw =>
    ⟨⟨hw ⟨.typeName type, s⟩ (by simp), hw ⟨.ident name, t⟩ (by simp), nofun, nofun⟩, rfl, rfl⟩

theorem ItemsDerived.writable {w : List Lexeme} {items : List Item} (h : ItemsDerived ArgsDerived w items)
    (hw : AllSpelled w) : ∀ item ∈ items, item.Writable := by
  induction h with
  | nil => exact nofun
  | cons h _ ih =>
    obtain ⟨hu, hv⟩ := List.forall_mem_append.mp hw
    exact List.forall_mem_cons.mpr ⟨h.writable hu, ih hv⟩

namespace Program

/-- What the check of the methods says does not depend on places. -/
theorem checkEntry_of_unplaced {p p' : Program} (h : p'.map .unplaced = p.map .unplaced)
    {m : Method} (hm : p.methods = [m]) (hn : m.name.text = entryName) : p'.checkEntry = .ok () := by
  have hmap : p'.methods.map (Method.map .unplaced) = [m.map .unplaced] := by
    rw [← methods_map, h, methods_map, hm]
    rfl
  obtain ⟨m', hm', he⟩ := List.map_eq_singleton_iff.mp hmap
  have hn' : m'.name.text = entryName := by
    rw [← hn]
    exact congrArg (fun m => m.name.text) he
  simp [checkEntry, checkMethods, hm', hn']

/-- The check of the methods says that the entry method is the only one. -/
theorem methods_of_checkEntry {p : Program} (h : p.checkEntry = .ok ()) :
    ∃ m, p.methods = [m] ∧ m.name.text = entryName := by
  rw [checkEntry] at h
  rcases hm : p.methods with _ | ⟨m, _ | ⟨m', ms⟩⟩ <;> rw [hm] at h
  · cases h
  · refine ⟨m, rfl, ?_⟩
    by_cases hn : m.name.text = entryName
    · exact hn
    · simp [checkMethods, hn] at h
  · by_cases hn : m.name.text = entryName <;> by_cases hn' : m'.name.text = entryName <;>
      simp [checkMethods, hn, hn'] at h

/-- Every program that is read from a text can be written. -/
theorem writable_of_parse {text : String} {p : Program} (h : parse text = .ok p) : p.Writable := by
  obtain ⟨tokens, ht, ho, hc⟩ := parse_eq_ok.mp h
  obtain ⟨ts, e, rfl, he, hne, -⟩ := tokenize_ok ht
  obtain ⟨c, hrun⟩ := run_of_ofTokens ho
  refine ⟨(Parser.derived_of_run_program he hne hrun).writable fun l hl => ?_, methods_of_checkEntry hc⟩
  obtain ⟨l, hmem, rfl⟩ := List.mem_map.mp hl
  have hspelled := isSpelled_of_tokenize ht l (List.mem_append_left _ hmem) (hne l hmem)
  rwa [Lexeme.flat, Token.isSpelled_flat]

/-- A text of the tokens of a program is scanned and read. -/
theorem ofTokens_of_laid {ts : List Token} {text : String} {p : Program} (ht : Legible ts)
    (hl : Laid ts text.toList) (hw : ItemsWritten ts p.items) :
    ∃ tokens p', tokenize text = .ok tokens ∧ ofTokens tokens = .ok p' ∧ p'.unplaced = p.unplaced := by
  obtain ⟨ls, e, htokens, he, hflat⟩ := tokenize_laid hl ht.isSpelled
  have hplaces : Places (ls.map Lexeme.flat) ts := by
    rw [Places, List.map_map]
    exact hflat
  obtain ⟨items', hd, hitems⟩ := hw.derived hplaces
  -- The grammar knows no depths; the scanned tokens have the ones that the reader asks for.
  refine ⟨_, ⟨items'⟩, htokens, ofTokens_of_derived hd ?_, congrArg Program.mk hitems⟩
  obtain ⟨ls', e', heq, -, hne, hfit⟩ := tokenize_ok htokens
  obtain ⟨rfl, -⟩ := List.append_inj' heq rfl
  rw [Cursor.rest_ofTokens_append hne he, Depths.assign_flat, hfit]

/-- A program that can be written has a text, and each of its texts is read as the program, but for the
places of its parts. -/
theorem parse_of_renders {p : Program} (hp : p.Writable) :
    (∃ text, p.Renders text) ∧
      ∀ text, p.Renders text → ∃ p', parse text = .ok p' ∧ p'.unplaced = p.unplaced := by
  refine ⟨exists_renders hp, fun text ⟨ts, hw, hl⟩ => ?_⟩
  obtain ⟨tokens, p', htokens, hread, he⟩ := ofTokens_of_laid (hw.legible hp.1) hl hw
  obtain ⟨m, hm, hn⟩ := hp.2
  exact ⟨p', parse_eq_ok.mpr ⟨tokens, htokens, hread, checkEntry_of_unplaced he hm hn⟩, he⟩

/-- A method that multiplies a difference with a change of sign and calls a function. -/
def signedProduct : Program :=
  ⟨[.method ⟨⟨"Main", ⟨0, 0⟩⟩, [],
    [.assign ⟨"x", ⟨0, 0⟩⟩ .set
      (.binary .mul (.binary .sub (.var ⟨"x", ⟨0, 0⟩⟩) (.number 1)) (.neg (.var ⟨"x", ⟨0, 0⟩⟩))) ⟨0, 0⟩,
    .call ⟨"if", ⟨0, 0⟩⟩ ⟨"log", ⟨0, 0⟩⟩ [.var ⟨"x", ⟨0, 0⟩⟩] ⟨0, 0⟩]⟩]⟩

theorem parse_of_renders_signedProduct :
    signedProduct.Writable ∧
    ∃ p', parse "def Main ( ) \x7b x = ( x - 1.0 ) * - x ; if. log ( x , ) ; \x7d " = .ok p' ∧
      p'.unplaced = signedProduct.unplaced := by
  have hx : Name.isIdent ⟨"x", ⟨0, 0⟩⟩ = true := by decide
  have hone : Binary32.ofText? "1.0" = some 1 := by decide +kernel
  have hp : signedProduct.Writable := by
    refine ⟨List.forall_mem_singleton.mpr ⟨by decide, nofun, ?_⟩, _, rfl, rfl⟩
    exact ⟨⟨hx, ⟨hx, "1.0", by decide, hone⟩, hx⟩, ⟨by decide, by decide, hx, trivial⟩, trivial⟩
  have hw : ItemsWritten _ signedProduct.items :=
    .cons (.method .none (.cons (.assign rfl (.binary
      (.group (.binary .var (.number (by decide) hone) (by decide) (by decide))) (.neg .var)
      (by decide) (by decide))) (.cons (.call (.trailing (.one .var))) .nil))) .nil
  exact ⟨hp, (parse_of_renders hp).2 _ ⟨_, hw, (hw.legible hp.1).laid⟩⟩

end Program

end ScriptGraph
