import ScriptGraph.Text.CaseTables

/-!
# Lower-casing

Lower-casing maps each character on its own, with two exceptions of the full Unicode rule:

* one capital letter, the `I` with a dot, has a lower-case form of two characters;
* a capital sigma becomes a final sigma where it ends a word, so its form depends on the characters
  around it.
-/

namespace ScriptGraph.Text

/-- Does a character lie in one of the ranges? -/
def inRanges (ranges : List (Nat × Nat)) (c : Char) : Bool :=
  ranges.any fun r => r.1 ≤ c.toNat && c.toNat ≤ r.2

/-- Is a character skipped in the search for a neighbouring letter? -/
def isIgnorable (c : Char) : Bool :=
  inRanges ignorableRanges c

/-- Is a character a letter in upper, lower or title case? -/
def isCased (c : Char) : Bool :=
  inRanges casedRanges c

/-- The lower-case form of a character that has one of a single character, else the character. -/
def lowerChar (c : Char) : Char :=
  if c.toNat < 0x80 then c.toLower
  else
    match lowerRanges.find? fun r =>
        r.first ≤ c.toNat && c.toNat ≤ r.last && (c.toNat - r.first) % r.stride == 0 with
    | some r => Char.ofNat (c.toNat + r.offset).toNat
    | none => c

/-- Does the nearest character that is not ignorable exist and have a case? -/
def reachesCased (cs : List Char) : Bool :=
  match cs.dropWhile isIgnorable with
  | c :: _ => isCased c
  | [] => false

/-- The lower-case form of a character between the characters `before` it, the nearest first, and
those `after` it. -/
def lowerBetween (before : List Char) (c : Char) (after : List Char) : List Char :=
  if c = 'Σ' then [if reachesCased before && !reachesCased after then 'ς' else 'σ']
  else if c = 'İ' then ['i', Char.ofNat 0x307]
  else [lowerChar c]

/-- The lower-case form of the characters that follow `before`, whose nearest stands first. -/
def lowerAfter (before : List Char) : List Char → List Char
  | [] => []
  | c :: cs => lowerBetween before c cs ++ lowerAfter (c :: before) cs

/-- The lower-case form of a text. -/
def lower (text : String) : String :=
  String.ofList (lowerAfter [] text.toList)

end ScriptGraph.Text
