import ScriptGraph.Proofs.Token.Segmentation

/-!
# Scanning what was printed

Which token a word is depends on the character behind it, and which tokens two characters are on
whether there is white space between them. Still the tokens of a text are determined by what can be
printed of them: if their texts are written down with a blank between any two, but none between a
qualifier and its dot, they are scanned again.

* `joined`, `printed` — tokens written down with blanks between them;
* `Dotted` — a dot stands directly behind every qualifier, as it does wherever tokens were scanned;
* `tokenize_printed` — what was printed is scanned as the same tokens, depths of brackets included.
-/

namespace ScriptGraph

open Scanner

/-- Tokens with a blank between any two of them, but none behind a qualifier. -/
def joined : List Token → List Char
  | [] => []
  | [t] => t.text.toList
  | .qualifier receiver :: ts => receiver.toList ++ joined ts
  | t :: ts => t.text.toList ++ ' ' :: joined ts

/-- The text of some tokens; nothing is printed for the end mark. -/
def printed (tokens : List Lexeme) : String :=
  String.ofList (joined ((tokens.map (·.token)).filter (· ≠ .eof)))

/-! ## A dot behind every qualifier -/

/-- Directly behind every qualifier stands a dot. -/
def Dotted (tokens : List Lexeme) : Prop :=
  ∀ before l behind receiver, tokens = before ++ l :: behind → l.token = .qualifier receiver →
    ∃ dot rest, behind = dot :: rest ∧ dot.token = .dot ∧ dot.span.start = l.span.stop

namespace Dotted

variable {l dot : Lexeme} {ls : List Lexeme}

theorem nil : Dotted [] := by
  intro before l behind receiver h
  simp at h

theorem cons (h : Dotted ls) (hl : ∀ receiver, l.token = .qualifier receiver →
    ∃ dot rest, ls = dot :: rest ∧ dot.token = .dot ∧ dot.span.start = l.span.stop) :
    Dotted (l :: ls) := by
  intro before l' behind receiver heq hq
  cases before with
  | nil =>
    cases heq
    exact hl receiver hq
  | cons l₀ before =>
    cases heq
    exact h before l' behind receiver rfl hq

theorem head (h : Dotted (l :: ls)) {receiver : String} (hq : l.token = .qualifier receiver) :
    ∃ dot rest, ls = dot :: rest ∧ dot.token = .dot ∧ dot.span.start = l.span.stop :=
  h [] l ls receiver rfl hq

theorem tail (h : Dotted (l :: ls)) : Dotted ls := by
  intro before l' behind receiver heq hq
  exact h (l :: before) l' behind receiver (by rw [heq, List.cons_append]) hq

/-- The end mark is no dot, so no qualifier stands before it. -/
theorem init (h : Dotted (ls ++ [l])) (hl : l.token = .eof) : Dotted ls := by
  intro before l' behind receiver heq hq
  have hsplit : ls ++ [l] = before ++ l' :: (behind ++ [l]) := by rw [heq]; simp
  obtain ⟨dot, rest, hb, hdot, hstart⟩ := h before l' (behind ++ [l]) receiver hsplit hq
  cases behind with
  | nil =>
    cases hb
    rw [hl] at hdot
    cases hdot
  | cons d behind =>
    cases hb
    exact ⟨_, _, rfl, hdot, hstart⟩

end Dotted

namespace Scanner

variable {source : String} {s s' : Scanner} {l : Lexeme}

/-- Behind a qualifier the scanner stands before a dot. -/
theorem At.next_qualifier (h : s.At source) {receiver : String} (hn : s.next = (.ok l, s'))
    (hq : l.token = .qualifier receiver) :
    s'.offset = l.span.stop ∧ ∃ cs, s'.rest = '.' :: cs := by
  obtain ⟨hat, -⟩ := h.skipBlanks
  rcases s.next_cases with ⟨hr, hnext⟩ | ⟨c, cs, hr, ht, hnext⟩ | ⟨c, cs, t, hr, ht, hnext⟩
  · cases hn.symm.trans hnext
    cases hq
  · cases hn.symm.trans hnext
  · cases hn.symm.trans hnext
    obtain ⟨behind, -, hp, -, hrest, -⟩ := hat.drop_text hr ht
    dsimp only at hq
    subst hq
    exact ⟨rfl, List.head?_eq_some_iff.mp (hrest ▸ hp)⟩

/-- Before a dot the scanner takes the dot, and nothing in front of it. -/
theorem next_dot {cs : List Char} (hr : s.rest = '.' :: cs) :
    s.next = (.ok ⟨.dot, ⟨s.offset, (s.drop 1).offset⟩⟩, s.drop 1) := by
  have hskip : s.skipBlanks = s := by
    have hblank : s.rest.takeWhile Text.isWhiteSpace = [] := by
      rw [hr]
      exact List.takeWhile_cons_of_neg (by decide)
    rw [skipBlanks, hblank]
    rfl
  rw [next, hskip]
  simp only [hr]
  rfl

/-- The tokens before a dot start with it. -/
theorem tokens_dot {n : Nat} {cs : List Char} {ls : List Lexeme} (hr : s.rest = '.' :: cs)
    (hn : s.rest.length ≤ n) (ht : s.tokens n = .ok ls) :
    ∃ dot rest, ls = dot :: rest ∧ dot.token = .dot ∧ dot.span.start = s.offset := by
  obtain ⟨n, rfl⟩ : ∃ m, n = m + 1 := ⟨n - 1, by rw [hr, List.length_cons] at hn; omega⟩
  simp only [tokens, next_dot hr, reduceCtorEq, if_false] at ht
  rcases hrest : (s.drop 1).tokens n with e | ls'
  · rw [hrest] at ht
    cases ht
  · rw [hrest] at ht
    cases ht
    exact ⟨_, ls', rfl, rfl, rfl⟩

/-- Wherever a text is scanned, a dot stands directly behind every qualifier. -/
theorem At.dotted {n : Nat} {ls : List Lexeme} (h : s.At source) (hn : s.rest.length ≤ n)
    (ht : s.tokens n = .ok ls) : Dotted ls := by
  induction n generalizing s ls with
  | zero =>
    cases ht
    exact Dotted.nil.cons nofun
  | succ n ih =>
    rw [tokens] at ht
    split at ht
    · cases ht
    · next l s' hnext =>
      split at ht
      · next he =>
        cases ht
        refine Dotted.nil.cons fun receiver hq => ?_
        rw [he] at hq
        cases hq
      · next he =>
        rcases hrest : s'.tokens n with e | ls'
        · rw [hrest] at ht
          cases ht
        · rw [hrest] at ht
          cases ht
          have hstep := h.next
          rw [hnext] at hstep
          rcases hstep with ⟨hend, -⟩ | ⟨hat, hlt, -⟩
          · cases hend
            exact absurd rfl he
          · have hn' : s'.rest.length ≤ n := by
              dsimp only at hlt
              omega
            refine (ih hat hn' hrest).cons fun receiver hq => ?_
            obtain ⟨hstop, cs, hr⟩ := h.next_qualifier hnext hq
            exact hstop ▸ tokens_dot hr hn' hrest

end Scanner

/-! ## Legible tokens are scanned again -/

/-- Scanned tokens can be written down. -/
theorem legible_of_dotted {ls : List Lexeme} (h : Dotted ls)
    (hs : ∀ l ∈ ls, l.token.isSpelled = true) : Legible (ls.map (·.token)) := by
  induction hn : ls.length using Nat.strong_induction_on generalizing ls with
  | _ n ih =>
    subst hn
    rcases ls with _ | ⟨l, ls⟩
    · exact .nil
    obtain ⟨hl, hls⟩ := List.forall_mem_cons.mp hs
    by_cases hq : ∃ receiver, l.token = .qualifier receiver
    · -- a qualifier is taken together with its dot
      obtain ⟨receiver, hq⟩ := hq
      obtain ⟨dot, rest, rfl, hdot, -⟩ := h.head hq
      rw [List.map_cons, List.map_cons, hq, hdot]
      rw [hq] at hl
      have hlt : rest.length < (l :: dot :: rest).length := by
        rw [List.length_cons, List.length_cons]
        omega
      exact .qualified hl (ih _ hlt h.tail.tail (List.forall_mem_cons.mp hls).2 rfl)
    · have halone : l.token.standsAlone = true := by
        rcases ht : l.token <;> rw [ht] at hl <;> first | exact hl | exact absurd ⟨_, ht⟩ hq
      exact .cons halone (ih _ (by simp) h.tail hls rfl)

/-- Legible tokens with blanks between them are laid out. -/
theorem Legible.laid_joined {ts : List Token} (h : Legible ts) : Laid ts (joined ts) := by
  have hnil : Laid [] [] := .nil nofun
  have halone : ∀ {t : Token} {ts : List Token}, t.standsAlone = true → Laid ts (joined ts) →
      Laid (t :: ts) (joined (t :: ts)) := by
    intro t ts ht hts
    have hstop : t.Precedes [] := by cases t <;> first | cases ht; done | exact nofun
    cases ts with
    | nil => simpa [joined] using hnil.tight hstop
    | cons u us =>
      have hjoin : joined (t :: u :: us) = t.text.toList ++ ' ' :: joined (u :: us) := by
        cases t <;> first | cases ht; done | rfl
      rw [hjoin]
      exact hts.blank.tight (t.precedes_of_standsAlone ht (by decide))
  induction h with
  | nil => exact hnil
  | cons ht _ ih => exact halone ht ih
  | @qualified receiver ts hr _ ih =>
    have hdot : Laid (.dot :: ts) (joined (.dot :: ts)) := halone rfl ih
    have hhead : (joined (.dot :: ts)).head? = some '.' := by cases ts <;> rfl
    exact hdot.tight hhead

/-- Tokens whose depths are the ones they must have are determined by the rest of them. -/
theorem Depths.Fits.tokens_eq {d : Depths} {ls ls' : List Lexeme} (h : d.Fits ls) (h' : d.Fits ls')
    (hf : ls.map (fun l => l.token.flat) = ls'.map (fun l => l.token.flat)) :
    ls.map (·.token) = ls'.map (·.token) := by
  induction ls generalizing d ls' with
  | nil =>
    rw [List.map_nil, eq_comm, List.map_eq_nil_iff] at hf
    rw [hf]
  | cons l ls ih =>
    rcases ls' with _ | ⟨l', ls'⟩
    · cases hf
    · obtain ⟨hm, hs⟩ := Depths.fits_cons.mp h
      obtain ⟨hm', hs'⟩ := Depths.fits_cons.mp h'
      rw [List.map_cons, List.map_cons] at hf
      obtain ⟨hflat, hrest⟩ := List.cons.inj hf
      have htoken : l.token = l'.token := by
        calc l.token = d.mark l.token.flat := by rw [Depths.mark_flat, hm]
          _ = d.mark l'.token.flat := by rw [hflat]
          _ = l'.token := by rw [Depths.mark_flat, hm']
      rw [← htoken] at hs'
      rw [List.map_cons, List.map_cons, htoken, ih hs hs' hrest]

/-- **What was printed is scanned again.** In the tokens of a text a dot stands directly behind every
qualifier, and if they are printed with a blank between any two, but none between a qualifier and its
dot, the text that comes out has the same tokens, the depths of brackets included. -/
theorem tokenize_printed {source : String} {tokens : List Lexeme}
    (h : tokenize source = .ok tokens) :
    Dotted tokens ∧
      ∃ tokens', tokenize (printed tokens) = .ok tokens' ∧
        tokens'.map (·.token) = tokens.map (·.token) := by
  have hdotted : Dotted tokens := (at_ofChars source).dotted (Nat.le_refl _) h
  refine ⟨hdotted, ?_⟩
  obtain ⟨ls, e, rfl, he, hne, hfit⟩ := tokenize_ok h
  have hspelled : ∀ l ∈ ls, l.token.isSpelled = true := fun l hl =>
    isSpelled_of_tokenize h l (List.mem_append_left _ hl) (hne l hl)
  have hlegible := legible_of_dotted (hdotted.init he) hspelled
  have hprinted : (printed (ls ++ [e])).toList = joined (ls.map (·.token)) := by
    have hfilter : ((ls ++ [e]).map (·.token)).filter (· ≠ .eof) = ls.map (·.token) := by
      rw [List.map_append, List.filter_append, List.map_singleton, List.filter_eq_self.mpr]
      · simp [he]
      · simpa using hne
    rw [printed, hfilter, String.toList_ofList]
  -- the printed text is scanned as these tokens up to depths, and depths follow from the rest
  obtain ⟨ls', e', htokens, he', hflat⟩ := tokenize_laid (hprinted ▸ hlegible.laid_joined)
    hlegible.isSpelled
  obtain ⟨ls'', e'', heq, -, -, hfit'⟩ := tokenize_ok htokens
  obtain ⟨rfl, -⟩ := List.append_inj' heq rfl
  refine ⟨_, htokens, ?_⟩
  rw [List.map_map] at hflat
  rw [List.map_append, List.map_append, hfit'.tokens_eq hfit hflat, List.map_singleton,
    List.map_singleton, he, he']

/-- A text with hardly any white space, a keyword before a dot and a bracket that closes nothing. -/
def crowded : String :=
  "if.x)1.e.5 .5a . b***c>==\x7d"

theorem tokenize_printed_crowded :
    ∃ tokens, tokenize crowded = .ok tokens ∧
      printed tokens = "if. x ) 1.e.5 . 5 a . b ** * c >= = \x7d" ∧ Dotted tokens ∧
      ∃ tokens', tokenize (printed tokens) = .ok tokens' ∧
        tokens'.map (·.token) = tokens.map (·.token) := by
  have hprinted : (tokenize crowded).toOption.map printed =
      some "if. x ) 1.e.5 . 5 a . b ** * c >= = \x7d" := by
    decide +kernel
  rcases h : tokenize crowded with e | tokens
  · rw [h] at hprinted
    cases hprinted
  · rw [h] at hprinted
    exact ⟨tokens, rfl, Option.some.inj hprinted, tokenize_printed h⟩

end ScriptGraph
