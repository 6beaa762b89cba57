import ScriptGraph.Proofs.Parsing.Grammar

/-!
# Depths of brackets

The depth of a bracket is determined by the brackets before it. `Depths` counts these; `assign` writes
the depths into a list of tokens, and a list *fits* if they are there already.

* `tokenize_ok` — what a scanned text consists of: tokens that fit, and the end mark;
* `Depths.after` — the counts behind a list of tokens; a list is balanced if it does not change them.
-/

namespace ScriptGraph

/-- How many brackets of each kind are open. -/
structure Depths where
  /-- opening braces less closing braces -/
  braces : Int
  /-- opening parentheses less closing parentheses -/
  parens : Int
  deriving DecidableEq, Repr

namespace Depths

/-- No bracket is open. -/
def zero : Depths := ⟨0, 0⟩

/-- A token with the depth it has behind brackets of which `d` are open. -/
def mark (d : Depths) : Token → Token
  | .lbrace _ => .lbrace d.braces
  | .rbrace _ => .rbrace (d.braces - 1)
  | .lparen _ => .lparen d.parens
  | .rparen _ => .rparen (d.parens - 1)
  | t => t

/-- The counts behind a token. -/
def next (d : Depths) : Token → Depths
  | .lbrace _ => { d with braces := d.braces + 1 }
  | .rbrace _ => { d with braces := d.braces - 1 }
  | .lparen _ => { d with parens := d.parens + 1 }
  | .rparen _ => { d with parens := d.parens - 1 }
  | _ => d

/-- The counts behind some tokens. -/
@[simp] def after (d : Depths) : List Lexeme → Depths
  | [] => d
  | l :: ls => (d.next l.token).after ls

/-- Some tokens with the depths they have behind brackets of which `d` are open. -/
@[simp] def assign (d : Depths) : List Lexeme → List Lexeme
  | [] => []
  | l :: ls => ⟨d.mark l.token, l.span⟩ :: (d.next l.token).assign ls

/-- Do some tokens have the depths that they must have? -/
def Fits (d : Depths) (ls : List Lexeme) : Prop :=
  d.assign ls = ls

instance (d : Depths) (ls : List Lexeme) : Decidable (d.Fits ls) :=
  inferInstanceAs (Decidable (_ = _))

@[simp] theorem mark_flat (d : Depths) (t : Token) : d.mark t.flat = d.mark t := by
  cases t <;> rfl

@[simp] theorem flat_mark (d : Depths) (t : Token) : (d.mark t).flat = t.flat := by
  cases t <;> rfl

@[simp] theorem next_flat (d : Depths) (t : Token) : d.next t.flat = d.next t := by
  cases t <;> rfl

@[simp] theorem next_mark (d d' : Depths) (t : Token) : d.next (d'.mark t) = d.next t := by
  cases t <;> rfl

/-- A token without depth is marked already. -/
theorem mark_of_depth? (d : Depths) {t : Token} (h : t.depth? = none) : d.mark t = t := by
  cases t <;> first | rfl | cases h

/-- A token without depth is no bracket. -/
theorem next_of_depth? (d : Depths) {t : Token} (h : t.depth? = none) : d.next t = d := by
  cases t <;> first | rfl | cases h

theorem after_append (d : Depths) (u v : List Lexeme) :
    d.after (u ++ v) = (d.after u).after v := by
  induction u generalizing d with
  | nil => rfl
  | cons l u ih => exact ih _

theorem after_flat (d : Depths) (ls : List Lexeme) : d.after (ls.map Lexeme.flat) = d.after ls := by
  induction ls generalizing d with
  | nil => rfl
  | cons l ls ih =>
    rw [List.map_cons, after, Lexeme.flat, next_flat]
    exact ih _

theorem assign_append (d : Depths) (u v : List Lexeme) :
    d.assign (u ++ v) = d.assign u ++ (d.after u).assign v := by
  induction u generalizing d with
  | nil => rfl
  | cons l u ih => simp only [List.cons_append, assign, after, ih]

theorem assign_flat (d : Depths) (ls : List Lexeme) :
    d.assign (ls.map Lexeme.flat) = d.assign ls := by
  induction ls generalizing d with
  | nil => rfl
  | cons l ls ih => simp only [List.map_cons, assign, Lexeme.flat, mark_flat, next_flat, ih]

theorem flat_assign (d : Depths) (ls : List Lexeme) :
    (d.assign ls).map Lexeme.flat = ls.map Lexeme.flat := by
  induction ls generalizing d with
  | nil => rfl
  | cons l ls ih => simp only [List.map_cons, assign, Lexeme.flat, flat_mark, ih]

@[simp] theorem length_assign (d : Depths) (ls : List Lexeme) : (d.assign ls).length = ls.length := by
  simpa using congrArg List.length (d.flat_assign ls)

theorem fits_assign (d : Depths) (ls : List Lexeme) : d.Fits (d.assign ls) := by
  rw [Fits, ← assign_flat, flat_assign, assign_flat]

theorem fits_cons {d : Depths} {l : Lexeme} {ls : List Lexeme} :
    d.Fits (l :: ls) ↔ d.mark l.token = l.token ∧ (d.next l.token).Fits ls := by
  rcases l with ⟨t, s⟩
  simp [Fits, assign]

end Depths

/-! ## Scanning -/

namespace Scanner

/-- The counts of a scanner. -/
def depths (s : Scanner) : Depths :=
  ⟨s.braces, s.parens⟩

theorem mark?_plain {cs : List Char} {t : Token} (h : mark? cs = some t) :
    t.depth? = none ∧ t ≠ .eof := by
  unfold mark? at h
  split at h <;> cases h <;> exact ⟨rfl, nofun⟩

theorem ofWord_plain (word : String) :
    (Token.ofWord word).depth? = none ∧ Token.ofWord word ≠ .eof := by
  unfold Token.ofWord
  repeat' split
  all_goals exact ⟨rfl, nofun⟩

/-- A scanned token has the depth it must have. -/
theorem mark_token? {s : Scanner} {c : Char} {cs : List Char} {t : Token}
    (h : s.token? c cs = some t) : s.depths.mark t = t ∧ t ≠ .eof := by
  have plain : ∀ {t : Token}, t.depth? = none ∧ t ≠ .eof → s.depths.mark t = t ∧ t ≠ .eof :=
    fun h => ⟨Depths.mark_of_depth? _ h.1, h.2⟩
  unfold token? at h
  split at h
  · cases h
    exact ⟨rfl, nofun⟩
  split at h
  · dsimp only at h
    split at h <;> cases h
    · exact ⟨rfl, nofun⟩
    · exact plain (ofWord_plain _)
  repeat' split at h
  all_goals first
    | exact plain (mark?_plain h)
    | cases h; exact ⟨rfl, nofun⟩

/-- The counts behind a token. -/
theorem depths_count (s : Scanner) {t : Token} (h : s.depths.mark t = t) :
    (s.count t).depths = s.depths.next t := by
  cases t <;> first | rfl | (injection h with h; simp [count, depths, Depths.next, ← h])

/-- One step yields the end mark, or a token with the depth it must have. -/
theorem next_ok {s s' : Scanner} {l : Lexeme} (h : s.next = (.ok l, s')) :
    l.token = .eof ∨
      l.token ≠ .eof ∧ s.depths.mark l.token = l.token ∧ s'.depths = s.depths.next l.token := by
  rw [next] at h
  dsimp only at h
  split at h
  · cases h
    exact .inl rfl
  · next c cs _ =>
    split at h
    · next t ht =>
      cases h
      obtain ⟨hm, he⟩ := mark_token? ht
      exact .inr ⟨he, hm, depths_count _ hm⟩
    · cases h

/-- What is scanned is a list of tokens with the depths they must have, and the end mark. -/
theorem tokens_ok {n : Nat} {s : Scanner} {ls : List Lexeme} (h : s.tokens n = .ok ls) :
    ∃ ts e, ls = ts ++ [e] ∧ e.token = .eof ∧ (∀ l ∈ ts, l.token ≠ .eof) ∧ s.depths.Fits ts := by
  induction n generalizing s ls with
  | zero =>
    cases h
    exact ⟨[], _, rfl, rfl, nofun, rfl⟩
  | succ n ih =>
    rw [tokens] at h
    split at h
    · cases h
    · next l s' hn =>
      split at h
      · next he =>
        cases h
        exact ⟨[], l, rfl, he, nofun, rfl⟩
      · next he =>
        obtain ⟨-, hm, hd⟩ := (next_ok hn).resolve_left he
        rcases hr : s'.tokens n with e | ls'
        · rw [hr] at h
          cases h
        · rw [hr] at h
          cases h
          obtain ⟨ts, e, rfl, hend, hts, hfit⟩ := ih hr
          exact ⟨l :: ts, e, rfl, hend, by simpa [he] using hts,
            Depths.fits_cons.mpr ⟨hm, by rwa [← hd]⟩⟩

end Scanner

/-- What a scanned text consists of. -/
theorem tokenize_ok {source : String} {tokens : List Lexeme} (h : tokenize source = .ok tokens) :
    ∃ ts e, tokens = ts ++ [e] ∧ e.token = .eof ∧ (∀ l ∈ ts, l.token ≠ .eof) ∧
      Depths.zero.Fits ts :=
  Scanner.tokens_ok h

/-! ## The cursor before a list of tokens -/

namespace Cursor

theorem rest_ofTokens (tokens : List Lexeme) :
    (ofTokens tokens).rest = tokens.takeWhile fun l => l.token != .eof := rfl

theorem rest_ofTokens_of_ne_eof {ts : List Lexeme} (h : ∀ l ∈ ts, l.token ≠ .eof) :
    (ofTokens ts).rest = ts := by
  rw [rest_ofTokens, ← List.append_nil ts,
    List.takeWhile_append_of_pos fun l hl => by simpa using h l (by simpa using hl)]
  rfl

/-- The end mark is not among the tokens to be read. -/
theorem rest_ofTokens_append {ts : List Lexeme} {e : Lexeme} (h : ∀ l ∈ ts, l.token ≠ .eof)
    (he : e.token = .eof) : (ofTokens (ts ++ [e])).rest = ts := by
  rw [rest_ofTokens, List.takeWhile_append_of_pos fun l hl => by simpa using h l hl]
  simp [he]

end Cursor

end ScriptGraph
