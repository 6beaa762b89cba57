import ScriptGraph.Proofs.Token.Nesting

/-!
# Which brackets belong together

Two brackets of one kind are a pair if the brackets of their kind between them are balanced. That is
said here without depths, and then read off them: the depth of a bracket is how many brackets of its
kind are open around it, so two brackets are a pair if they are of one depth and no other bracket of
that depth stands between them. The text may have stray brackets, and depths may be negative.

* `Bracket.Balanced`, `Bracket.Pair` — brackets that belong together, by counting;
* `Depths.count_after` — depths are counts;
* `Depths.Fits.lt_count`, `Depths.Fits.count_le` — the number of open brackets passes a depth only
  by a bracket of that depth;
* `tokenize_pairs` — in scanned text pairs are found by their depths, from either end.
-/

namespace ScriptGraph

/-! ## Pairs -/

/-- A kind of brackets. -/
inductive Bracket : Type where
  | brace
  | paren
  deriving DecidableEq, Repr

namespace Bracket

/-- The opening bracket of a depth. -/
def opening : Bracket → Int → Token
  | .brace => .lbrace
  | .paren => .lparen

/-- The closing bracket of a depth. -/
def closing : Bracket → Int → Token
  | .brace => .rbrace
  | .paren => .rparen

/-- Is a token an opening bracket of a kind? -/
def opens (k : Bracket) (l : Lexeme) : Bool :=
  l.token.sameKind (k.opening 0)

/-- Is a token a closing bracket of a kind? -/
def closes (k : Bracket) (l : Lexeme) : Bool :=
  l.token.sameKind (k.closing 0)

/-- The number of brackets that some tokens open, less the number of those that they close. -/
def excess (k : Bracket) (ls : List Lexeme) : Int :=
  (ls.countP k.opens : Int) - ls.countP k.closes

/-- As many brackets of a kind are closed as are opened, and up to no point more. -/
structure Balanced (k : Bracket) (ls : List Lexeme) : Prop where
  total : ls.countP k.closes = ls.countP k.opens
  upTo : ∀ u, u <+: ls → u.countP k.closes ≤ u.countP k.opens

/-- An opening bracket is the partner of a closing one, with some tokens between them. -/
structure Pair (k : Bracket) (left : Lexeme) (between : List Lexeme) (right : Lexeme) : Prop where
  opens : k.opens left = true
  closes : k.closes right = true
  balanced : k.Balanced between

variable {k : Bracket}

theorem opens_of_eq {l : Lexeme} {n : Int} (h : l.token = k.opening n) : k.opens l = true := by
  rw [opens, h]
  cases k <;> rfl

theorem closes_of_eq {l : Lexeme} {n : Int} (h : l.token = k.closing n) : k.closes l = true := by
  rw [closes, h]
  cases k <;> rfl

theorem not_closes {l : Lexeme} (h : k.opens l = true) : k.closes l = false := by
  rcases l with ⟨t, s⟩
  cases k <;> cases t <;> first | rfl | cases h

theorem opening_inj {m n : Int} (h : k.opening m = k.opening n) : m = n := by
  cases k <;> exact (by injection h)

theorem closing_inj {m n : Int} (h : k.closing m = k.closing n) : m = n := by
  cases k <;> exact (by injection h)

theorem excess_singleton (k : Bracket) (l : Lexeme) :
    k.excess [l] = (if k.opens l then 1 else 0) - (if k.closes l then 1 else 0) := by
  simp only [excess, List.countP_cons, List.countP_nil]
  split <;> split <;> rfl

theorem excess_of_opens {l : Lexeme} (h : k.opens l = true) : k.excess [l] = 1 := by
  rw [excess_singleton, if_pos h, not_closes h]
  rfl

theorem excess_of_closes {l : Lexeme} (h : k.closes l = true) : k.excess [l] = -1 := by
  have ho : ¬k.opens l = true := fun ho => by simp [not_closes ho] at h
  rw [excess_singleton, if_neg ho, if_pos h]
  rfl

end Bracket

/-! ## Depths are counts -/

namespace Depths

variable {k : Bracket} {d : Depths} {l : Lexeme} {u v ls : List Lexeme} {n : Int}

/-- How many brackets of a kind are open. -/
def count (d : Depths) : Bracket → Int
  | .brace => d.braces
  | .paren => d.parens

theorem count_next (d : Depths) (k : Bracket) (l : Lexeme) :
    (d.next l.token).count k = d.count k + k.excess [l] := by
  rcases l with ⟨t, s⟩
  cases k <;> cases t <;>
    simp [Bracket.excess, Bracket.opens, Bracket.closes, Bracket.opening, Bracket.closing,
      Token.sameKind, Token.bare, next, count] <;> rfl

theorem count_after (d : Depths) (k : Bracket) (ls : List Lexeme) :
    (d.after ls).count k = d.count k + k.excess ls := by
  induction ls generalizing d with
  | nil => simp [Bracket.excess]
  | cons l ls ih =>
    rw [after, ih, count_next]
    simp only [Bracket.excess, List.countP_cons, List.countP_nil]
    push_cast
    omega

theorem count_next_of_opens (h : k.opens l = true) :
    (d.next l.token).count k = d.count k + 1 := by
  rw [count_next, Bracket.excess_of_opens h]

theorem count_next_of_closes (h : k.closes l = true) :
    (d.next l.token).count k = d.count k - 1 := by
  rw [count_next, Bracket.excess_of_closes h]
  rfl

/-- Behind balanced brackets as many are open as in front of them, and in between no fewer. -/
theorem balanced_iff (d : Depths) (k : Bracket) (ls : List Lexeme) :
    k.Balanced ls ↔
      (d.after ls).count k = d.count k ∧ ∀ u, u <+: ls → d.count k ≤ (d.after u).count k := by
  simp only [count_after, Bracket.excess]
  constructor
  · rintro ⟨ht, hu⟩
    exact ⟨by omega, fun u h => by have := hu u h; omega⟩
  · rintro ⟨ht, hu⟩
    exact ⟨by omega, fun u h => by have := hu u h; omega⟩

theorem fits_append : d.Fits (u ++ v) ↔ d.Fits u ∧ (d.after u).Fits v := by
  induction u generalizing d with
  | nil => simp [Fits]
  | cons l u ih => rw [List.cons_append, fits_cons, fits_cons, ih, after, and_assoc]

/-- An opening bracket has the depth that is counted in front of it. -/
theorem opens_of_mark (h : d.mark l.token = l.token) :
    k.opens l = true ↔ l.token = k.opening (d.count k) := by
  rcases l with ⟨t, s⟩
  cases k <;> cases t <;>
    simp_all [Bracket.opens, Bracket.opening, Token.sameKind, Token.bare, mark, count]

/-- A closing bracket has the depth that is counted behind it. -/
theorem closes_of_mark (h : d.mark l.token = l.token) :
    k.closes l = true ↔ l.token = k.closing (d.count k - 1) := by
  rcases l with ⟨t, s⟩
  cases k <;> cases t <;>
    simp_all [Bracket.closes, Bracket.closing, Token.sameKind, Token.bare, mark, count]

/-- Where more than `n` brackets are open, no fewer are open further on unless a bracket of the
depth `n` closes. -/
theorem Fits.lt_count (h : d.Fits ls) (hd : n < d.count k)
    (hn : ∀ l ∈ ls, l.token ≠ k.closing n) : n < (d.after ls).count k := by
  induction ls generalizing d with
  | nil => exact hd
  | cons l ls ih =>
    obtain ⟨hm, hls⟩ := fits_cons.mp h
    obtain ⟨hl, hrest⟩ := List.forall_mem_cons.mp hn
    refine ih hls ?_ hrest
    rw [count_next, Bracket.excess_singleton]
    by_cases hc : k.closes l = true
    · have hne : d.count k - 1 ≠ n := fun he => hl (he ▸ (closes_of_mark hm).mp hc)
      rw [if_pos hc]
      split <;> omega
    · rw [if_neg hc]
      split <;> omega

/-- Where at most `n` brackets are open, no more are open further on unless a bracket of the depth
`n` opens. -/
theorem Fits.count_le (h : d.Fits ls) (hd : d.count k ≤ n)
    (hn : ∀ l ∈ ls, l.token ≠ k.opening n) : (d.after ls).count k ≤ n := by
  induction ls generalizing d with
  | nil => exact hd
  | cons l ls ih =>
    obtain ⟨hm, hls⟩ := fits_cons.mp h
    obtain ⟨hl, hrest⟩ := List.forall_mem_cons.mp hn
    refine ih hls ?_ hrest
    rw [count_next, Bracket.excess_singleton]
    by_cases ho : k.opens l = true
    · have hne : d.count k ≠ n := fun he => hl (he ▸ (opens_of_mark hm).mp ho)
      rw [if_pos ho]
      split <;> omega
    · rw [if_neg ho]
      split <;> omega

end Depths

/-! ## Pairs and depths -/

section

variable {k : Bracket} {d : Depths} {left right : Lexeme} {between behind : List Lexeme} {n : Int}

/-- The partner of an opening bracket is the first closing one of its depth behind it. -/
theorem Depths.Fits.pair_iff_first (h : d.Fits (left :: between ++ right :: behind))
    (hl : left.token = k.opening n) :
    k.Pair left between right ↔
      right.token = k.closing n ∧ ∀ l ∈ between, l.token ≠ k.closing n := by
  rw [List.cons_append, fits_cons, fits_append, fits_cons] at h
  obtain ⟨hleft, hbetween, hright, -⟩ := h
  have hopens : k.opens left = true := Bracket.opens_of_eq hl
  have hn : d.count k = n := Bracket.opening_inj (((opens_of_mark hleft).mp hopens).symm.trans hl)
  have hinside : (d.next left.token).count k = n + 1 := by rw [count_next_of_opens hopens, hn]
  have hbalanced := balanced_iff (d.next left.token) k between
  rw [hinside] at hbalanced
  constructor
  · rintro ⟨-, hcloses, hbal⟩
    obtain ⟨htotal, hup⟩ := hbalanced.mp hbal
    refine ⟨?_, fun l hl hln => ?_⟩
    · rw [(closes_of_mark hright).mp hcloses, htotal, Int.add_sub_cancel]
    · -- a bracket of that depth in between would close one more than is opened
      obtain ⟨u, v, rfl⟩ := List.append_of_mem hl
      obtain ⟨-, hfit⟩ := fits_append.mp hbetween
      have hc : k.closes l = true := Bracket.closes_of_eq hln
      have hmark := (closes_of_mark (fits_cons.mp hfit).1).mp hc
      have hdepth := Bracket.closing_inj (hmark.symm.trans hln)
      have hpast := hup (u ++ [l]) ⟨v, by simp⟩
      rw [after_append, after, after, count_next_of_closes hc] at hpast
      omega
  · rintro ⟨hr, hfirst⟩
    have hcloses : k.closes right = true := Bracket.closes_of_eq hr
    have hend := Bracket.closing_inj (((closes_of_mark hright).mp hcloses).symm.trans hr)
    refine ⟨hopens, hcloses, hbalanced.mpr ⟨by omega, fun u hu => ?_⟩⟩
    obtain ⟨v, rfl⟩ := hu
    exact (fits_append.mp hbetween).1.lt_count (by omega)
      fun l hl => hfirst l (List.mem_append_left v hl)

/-- The partner of a closing bracket is the last opening one of its depth in front of it. -/
theorem Depths.Fits.pair_iff_last (h : d.Fits (left :: between ++ right :: behind))
    (hr : right.token = k.closing n) :
    k.Pair left between right ↔
      left.token = k.opening n ∧ ∀ l ∈ between, l.token ≠ k.opening n := by
  rw [List.cons_append, fits_cons, fits_append, fits_cons] at h
  obtain ⟨hleft, hbetween, hright, -⟩ := h
  have hcloses : k.closes right = true := Bracket.closes_of_eq hr
  have hend := Bracket.closing_inj (((closes_of_mark hright).mp hcloses).symm.trans hr)
  have hbalanced := balanced_iff (d.next left.token) k between
  constructor
  · rintro ⟨hopens, -, hbal⟩
    obtain ⟨htotal, hup⟩ := hbalanced.mp hbal
    have hinside : (d.next left.token).count k = d.count k + 1 := count_next_of_opens hopens
    refine ⟨?_, fun l hl hln => ?_⟩
    · rw [(opens_of_mark hleft).mp hopens]
      congr 1
      omega
    · -- in front of a bracket of that depth in between, one more is closed than is opened
      obtain ⟨u, v, rfl⟩ := List.append_of_mem hl
      obtain ⟨-, hfit⟩ := fits_append.mp hbetween
      have ho : k.opens l = true := Bracket.opens_of_eq hln
      have hmark := (opens_of_mark (fits_cons.mp hfit).1).mp ho
      have hdepth := Bracket.opening_inj (hmark.symm.trans hln)
      have hpast := hup u ⟨l :: v, rfl⟩
      omega
  · rintro ⟨hl, hlast⟩
    have hopens : k.opens left = true := Bracket.opens_of_eq hl
    have hn := Bracket.opening_inj (((opens_of_mark hleft).mp hopens).symm.trans hl)
    have hinside : (d.next left.token).count k = n + 1 := by rw [count_next_of_opens hopens, hn]
    refine ⟨hopens, hcloses, hbalanced.mpr ⟨by omega, fun u hu => ?_⟩⟩
    obtain ⟨v, rfl⟩ := hu
    refine Int.not_lt.mp fun hlt => ?_
    obtain ⟨-, hfit⟩ := fits_append.mp hbetween
    have hle := hfit.count_le (by omega) fun l hl => hlast l (List.mem_append_right u hl)
    rw [← after_append] at hle
    omega

end

/-- The depths of all scanned tokens are counts, the end mark included. -/
theorem tokenize_fits {source : String} {tokens : List Lexeme} (h : tokenize source = .ok tokens) :
    Depths.zero.Fits tokens := by
  obtain ⟨ts, e, rfl, he, -, hfit⟩ := tokenize_ok h
  refine Depths.fits_append.mpr ⟨hfit, Depths.fits_cons.mpr ⟨?_, rfl⟩⟩
  rw [he]
  rfl

/-- **Depths pair brackets.** In every text that can be scanned, balanced or not, and for each kind
of brackets: the partner of an opening bracket is the first closing bracket of its depth behind it,
and it has none if there is none; the partner of a closing bracket is the last opening bracket of
its depth in front of it, and it has none if there is none. -/
theorem tokenize_pairs {source : String} {tokens : List Lexeme} (h : tokenize source = .ok tokens)
    (k : Bracket) (depth : Int) :
    (∀ before left behind, tokens = before ++ left :: behind → left.token = k.opening depth →
      ∀ between right rest, behind = between ++ right :: rest →
        (k.Pair left between right ↔
          right.token = k.closing depth ∧ ∀ l ∈ between, l.token ≠ k.closing depth)) ∧
    ∀ before right behind, tokens = before ++ right :: behind → right.token = k.closing depth →
      ∀ rest left between, before = rest ++ left :: between →
        (k.Pair left between right ↔
          left.token = k.opening depth ∧ ∀ l ∈ between, l.token ≠ k.opening depth) := by
  have hfit := tokenize_fits h
  constructor
  · rintro before left _ rfl hl between right rest rfl
    exact (Depths.fits_append.mp hfit).2.pair_iff_first hl
  · rintro _ right behind rfl hr rest left between rfl
    rw [List.append_assoc] at hfit
    exact (Depths.fits_append.mp hfit).2.pair_iff_last hr

/-- A text with stray brackets of both kinds, in which a pair of braces and a pair of parentheses
cross. -/
def strayBrackets : String :=
  "\x7d()(\x7b)(\x7d))"

theorem tokenize_pairs_stray :
    ∃ before left between right behind,
      tokenize strayBrackets = .ok (before ++ left :: (between ++ right :: behind)) ∧
        left.token = .lbrace (-1) ∧ right.token = .rbrace (-1) ∧
        Bracket.brace.Pair left between right ∧
        ∀ rest other inner, before ++ left :: between = rest ++ other :: inner →
          Bracket.brace.Pair other inner right → other.token = .lbrace (-1) := by
  let lexeme (t : Token) (i : Nat) : Lexeme := ⟨t, ⟨i, i + 1⟩⟩
  let before := [lexeme (.rbrace (-1)) 0, lexeme (.lparen 0) 1, lexeme (.rparen 0) 2,
    lexeme (.lparen 0) 3]
  let between := [lexeme (.rparen 0) 5, lexeme (.lparen 0) 6]
  let behind := [lexeme (.rparen 0) 8, lexeme (.rparen (-1)) 9, ⟨.eof, ⟨10, 10⟩⟩]
  let left := lexeme (.lbrace (-1)) 4
  let right := lexeme (.rbrace (-1)) 7
  have h : tokenize strayBrackets = .ok (before ++ left :: (between ++ right :: behind)) := rfl
  obtain ⟨hfirst, hlast⟩ := tokenize_pairs h .brace (-1)
  refine ⟨before, left, between, right, behind, h, rfl, rfl, ?_, ?_⟩
  · exact (hfirst before left _ rfl rfl between right behind rfl).mpr ⟨rfl, by decide⟩
  · intro rest other inner hrest hpair
    have hiff := hlast (before ++ left :: between) right behind rfl rfl rest other inner hrest
    exact (hiff.mp hpair).1

end ScriptGraph
