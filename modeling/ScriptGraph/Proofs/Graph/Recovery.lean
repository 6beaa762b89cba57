import ScriptGraph.Graph.Editor
import ScriptGraph.Graph.Numbering
import ScriptGraph.Proofs.Json.RoundTrip

/-!
# The editor's document loses nothing

The editor reads a document field by field: the operation of a node out of a list of one, the kind
of a connection from a word, the value of a literal from its text. What it reads from the document
of a graph is the graph, so no two graphs have the same document.

* `Graph.ofEditor?` — reading a document in the editor's names;
* `Graph.IsSized` — numbers are within the sizes that a graph has for them;
* `Graph.readable_editorJson` — the text of the document is JSON;
* `Graph.ofEditor?_editorJson` — what is read is what was written.
-/

namespace ScriptGraph

/-! ## Reading a document -/

namespace Json

/-- The field of an object with a name. -/
def field? (name : String) : Json → Option Json
  | .object fields => fields.lookup name
  | _ => none

/-- The value of a string. -/
def text? : Json → Option String
  | .string s => some s
  | _ => none

/-- The value of a whole number. -/
def int? : Json → Option Int
  | .number text => Number.whole? text.toList
  | _ => none

/-- The value of a count. -/
def nat? (j : Json) : Option Nat :=
  j.int?.bind Int.toNat?

/-- The value of a floating-point number. -/
def binary32? : Json → Option Binary32
  | .number text => Binary32.ofText? text
  | _ => none

/-- The elements of a list, each read in one way. -/
def listOf? {α : Type} (element? : Json → Option α) : Json → Option (List α)
  | .array elements => elements.mapM element?
  | _ => none

/-- The only element of a list. -/
def only? : Json → Option Json
  | .array [j] => some j
  | _ => none

end Json

namespace Graph

/-- Reads a place. -/
def ofPlaceJson? (j : Json) : Option Place := do
  return { x := ← (← j.field? "x").binary32?, y := ← (← j.field? "y").binary32? }

/-- Reads a pin. -/
def ofEditorPin? (j : Json) : Option Pin := do
  return {
    name := ← (← j.field? "portName").text?
    dataType := ← (← j.field? "dataType").text? }

/-- Reads a node. -/
def ofEditorNode? (j : Json) : Option Node := do
  return {
    opcode := ← (← (← j.field? "ID").only?).int?
    ref := ← (← j.field? "refID").int?
    place := ← ofPlaceJson? (← j.field? "GraphPosition")
    linked := ← (← j.field? "linkedPieceRefID").int? }

/-- Reads the word for a kind of connection. -/
def ofKindWord? (word : String) : Option Bool :=
  if word = "True" then some true else if word = "False" then some false else none

/-- Reads a connection. -/
def ofEditorConnection? (j : Json) : Option Connection := do
  return {
    isExecution := ← ofKindWord? (← (← j.field? "isExecutionPort").text?)
    source := ← (← j.field? "fromNodeRefID").int?
    sourcePin := ← (← j.field? "fromNodePortIndex").nat?
    target := ← (← j.field? "toNodeRefID").int?
    targetPin := ← (← j.field? "toNodePortIndex").nat? }

/-- Reads a variable. -/
def ofEditorVariable? (j : Json) : Option Variable := do
  return {
    name := ← (← j.field? "VariableName").text?
    ref := ← (← j.field? "RefID").int?
    type := ← (← j.field? "Type").text?
    default := ← (← j.field? "Value").text? }

/-- Reads a literal. -/
def ofEditorLiteral? (j : Json) : Option Literal := do
  return {
    ref := ← (← j.field? "refID").int?
    name := ← (← j.field? "ValueName").text?
    place := ← ofPlaceJson? (← j.field? "GraphPosition")
    value := ← Binary32.ofText? (← (← j.field? "Value").text?) }

/-- Reads a graph in the editor's names. -/
def ofEditor? (j : Json) : Option Graph := do
  return {
    inputs := ← (← j.field? "InputPorts").listOf? ofEditorPin?
    outputs := ← (← j.field? "OutputPorts").listOf? ofEditorPin?
    globals := ← (← j.field? "Variables").listOf? ofEditorVariable?
    nodes := ← (← j.field? "nodes").listOf? ofEditorNode?
    literals := ← (← j.field? "Values").listOf? ofEditorLiteral?
    connections := ← (← j.field? "nodeConnections").listOf? ofEditorConnection?
    counter := ← (← j.field? "refIDCounter").int? }

end Graph

/-! ## Sizes -/

/-- Is a number an unsigned one of 64 bits, as the numbers of pins are? -/
def IsUInt64 (n : Nat) : Prop :=
  n < 18446744073709551616
  deriving Decidable

/-- Are both coordinates numbers that there are? -/
def Place.IsSized (p : Place) : Prop :=
  p.x.IsProper ∧ p.y.IsProper
  deriving Decidable

/-- Are both coordinates finite? -/
def Place.IsFinite (p : Place) : Prop :=
  p.x.IsFinite ∧ p.y.IsFinite
  deriving Decidable

namespace Graph

/-- Are all numbers of a graph of the sizes that it has for them? -/
structure IsSized (g : Graph) : Prop where
  nodes : ∀ n ∈ g.nodes, IsInt32 n.opcode ∧ IsInt32 n.ref ∧ IsInt32 n.linked ∧ n.place.IsSized
  literals : ∀ l ∈ g.literals, IsInt32 l.ref ∧ l.place.IsSized ∧ l.value.IsProper
  globals : ∀ v ∈ g.globals, IsInt32 v.ref
  connections : ∀ c ∈ g.connections,
    IsInt32 c.source ∧ IsUInt64 c.sourcePin ∧ IsInt32 c.target ∧ IsUInt64 c.targetPin
  counter : IsInt32 g.counter

/-- Do all nodes and literals of a graph stand at finite places? -/
structure HasFinitePlaces (g : Graph) : Prop where
  nodes : ∀ n ∈ g.nodes, n.place.IsFinite
  literals : ∀ l ∈ g.literals, l.place.IsFinite

end Graph

/-! ## Numbers in documents -/

namespace Json

/-- The text of a whole number is a numeral behind a sign. -/
theorem exists_numeral_toString (n : Int) : ∃ m : Decimal.Numeral,
    toString n = Binary32.signed (n < 0) m.chars ∧ m.power = 0 ∧
      m.whole = Decimal.digitChars n.natAbs := by
  let m : Decimal.Numeral := {
    whole := Decimal.digitChars n.natAbs
    fraction := []
    exponent := none
    whole_digits := Decimal.isDigit_digitChars _
    whole_ne_nil := Decimal.digitChars_ne_nil _
    leading_zero := by
      by_cases hn : n.natAbs = 0
      · rw [hn]
        exact .inl rfl
      · exact .inr (Decimal.head?_digitChars hn)
    fraction_digits := by simp }
  have hchars : m.chars = Decimal.digitChars n.natAbs := by
    simp [m, Decimal.Numeral.chars, Decimal.Numeral.fractionChars, Decimal.Numeral.exponentChars]
  refine ⟨m, ?_, rfl, rfl⟩
  rw [Binary32.signed, hchars, ← String.ofList_toList (s := toString n), Decimal.toList_toString]
  by_cases hn : n < 0 <;> simp [hn]

theorem readable_ofInt {n : Int} (hn : n.natAbs < 10 ^ 250) (depth : Nat) :
    Readable depth (.ofInt n) := by
  obtain ⟨m, htext, hpower, hwhole⟩ := exists_numeral_toString n
  rw [ofInt, htext]
  refine .number _ m ?_
  have := (Decimal.length_digitChars_le_iff (by decide)).mpr hn
  rw [hpower, hwhole]
  omega

theorem ofNat_eq_ofInt (n : Nat) : Json.ofNat n = Json.ofInt n :=
  rfl

theorem readable_ofNat {n : Nat} (hn : n < 10 ^ 250) (depth : Nat) : Readable depth (.ofNat n) := by
  rw [ofNat_eq_ofInt]
  exact readable_ofInt (n := n) hn depth

theorem readable_ofBinary32 {x : Binary32} (hx : x.IsProper) (depth : Nat) :
    Readable depth (.ofBinary32 x) := by
  match x with
  | .nan => exact .null
  | .infinite _ => exact .null
  | .finite negative quanta =>
    obtain ⟨n, htext, -, hn⟩ := Binary32.exists_jsonText? hx
    rw [ofBinary32, htext]
    exact .number negative n (by omega)

theorem whole?_digits {ds : List Char} (hds : ∀ c ∈ ds, c.isDigit = true) :
    Number.whole? ds = some (Decimal.ofDigitChars ds : Int) := by
  have hall : ds.all Char.isDigit = true := List.all_eq_true.mpr hds
  rw [Number.whole?, if_pos hall]
  rintro ds rfl
  cases hds '-' List.mem_cons_self

@[simp] theorem int?_ofInt (n : Int) : (Json.ofInt n).int? = some n := by
  have hdigits := Decimal.isDigit_digitChars n.natAbs
  rw [ofInt, int?, Decimal.toList_toString]
  by_cases hn : n < 0
  · have hall : ((Decimal.digitChars n.natAbs).all Char.isDigit &&
        decide (Decimal.ofDigitChars (Decimal.digitChars n.natAbs) ≠ 0)) = true := by
      rw [List.all_eq_true.mpr hdigits, Decimal.ofDigitChars_digitChars]
      simp
      omega
    rw [if_pos hn, List.singleton_append, Number.whole?, if_pos hall,
      Decimal.ofDigitChars_digitChars]
    exact congrArg some (by omega)
  · rw [if_neg hn, List.nil_append, whole?_digits hdigits, Decimal.ofDigitChars_digitChars]
    exact congrArg some (by omega)

@[simp] theorem nat?_ofNat (n : Nat) : (Json.ofNat n).nat? = some n := by
  rw [ofNat_eq_ofInt, nat?, int?_ofInt]
  rfl

theorem binary32?_ofBinary32 {x : Binary32} (hx : x.IsProper) (hfinite : x.IsFinite) :
    (Json.ofBinary32 x).binary32? = some x := by
  match x with
  | .finite negative quanta =>
    obtain ⟨n, htext, hread, -⟩ := Binary32.exists_jsonText? hx
    rw [ofBinary32, htext]
    exact hread

theorem listOf?_array {α : Type} {element? : Json → Option α} {write : α → Json}
    {as : List α} (h : ∀ a ∈ as, element? (write a) = some a) :
    (Json.array (as.map write)).listOf? element? = some as := by
  rw [listOf?]
  induction as with
  | nil => rfl
  | cons a as ih =>
    obtain ⟨ha, has⟩ := List.forall_mem_cons.mp h
    rw [List.map_cons, List.mapM_cons, ha, ih has]
    rfl

end Json

theorem IsInt32.readable {n : Int} (hn : IsInt32 n) (depth : Nat) :
    Json.Readable depth (.ofInt n) := by
  have hsize : n.natAbs < 10 ^ 10 := by
    obtain ⟨hlow, hhigh⟩ := hn
    omega
  exact Json.readable_ofInt
    (Nat.lt_of_lt_of_le hsize (Nat.pow_le_pow_right (by decide) (by decide))) depth

theorem IsUInt64.readable {n : Nat} (hn : IsUInt64 n) (depth : Nat) :
    Json.Readable depth (.ofNat n) :=
  Json.readable_ofNat (Nat.lt_trans hn (by decide +kernel)) depth

/-! ## The document of a graph -/

namespace Graph

open Json (Readable)

theorem readable_placeJson {p : Place} (hp : p.IsSized) (depth : Nat) :
    Readable (depth + 1) (placeJson p) := by
  refine .object ?_
  simp only [List.forall_mem_cons]
  exact ⟨Json.readable_ofBinary32 hp.1 depth, Json.readable_ofBinary32 hp.2 depth, by simp⟩

theorem readable_editorPin (p : Pin) (depth : Nat) : Readable (depth + 1) (editorPin p) := by
  refine .object ?_
  simp only [List.forall_mem_cons]
  exact ⟨.string _, .string _, by simp⟩

theorem readable_editorNode {n : Node}
    (hn : IsInt32 n.opcode ∧ IsInt32 n.ref ∧ IsInt32 n.linked ∧ n.place.IsSized) (depth : Nat) :
    Readable (depth + 2) (editorNode n) := by
  obtain ⟨hopcode, href, hlinked, hplace⟩ := hn
  refine .object ?_
  simp only [List.forall_mem_cons]
  exact ⟨.array (by simpa using hopcode.readable depth), href.readable _, hlinked.readable _,
    readable_placeJson hplace depth, by simp⟩

theorem readable_editorConnection {c : Connection}
    (hc : IsInt32 c.source ∧ IsUInt64 c.sourcePin ∧ IsInt32 c.target ∧ IsUInt64 c.targetPin)
    (depth : Nat) : Readable (depth + 1) (editorConnection c) := by
  obtain ⟨hsource, hsourcePin, htarget, htargetPin⟩ := hc
  refine .object ?_
  simp only [List.forall_mem_cons]
  exact ⟨.string _, hsource.readable _, hsourcePin.readable _, htarget.readable _,
    htargetPin.readable _, by simp⟩

theorem readable_editorVariable {v : Variable} (hv : IsInt32 v.ref) (depth : Nat) :
    Readable (depth + 1) (editorVariable v) := by
  refine .object ?_
  simp only [List.forall_mem_cons]
  exact ⟨.string _, hv.readable _, .string _, .string _, by simp⟩

theorem readable_editorLiteral {l : Literal}
    (hl : IsInt32 l.ref ∧ l.place.IsSized ∧ l.value.IsProper) (depth : Nat) :
    Readable (depth + 2) (editorLiteral l) := by
  refine .object ?_
  simp only [List.forall_mem_cons]
  exact ⟨hl.1.readable _, .string _, readable_placeJson hl.2.1 depth, .string _, .string _,
    by simp⟩

theorem readable_array_map {α : Type} {write : α → Json} {as : List α} {depth : Nat}
    (h : ∀ a ∈ as, Readable depth (write a)) : Readable (depth + 1) (.array (as.map write)) := by
  refine .array fun v hv => ?_
  obtain ⟨a, ha, rfl⟩ := List.mem_map.mp hv
  exact h a ha

/-- The document of a graph nests four levels deep and holds numbers only where it should. -/
theorem readable_editorJson {g : Graph} (hg : g.IsSized) (depth : Nat) :
    Readable (depth + 4) g.editorJson := by
  refine .object ?_
  simp only [List.forall_mem_cons]
  exact ⟨.string _, .bool _, IsInt32.readable (by decide) _, hg.counter.readable _,
    readable_placeJson (by decide +kernel) _, readable_placeJson (by decide +kernel) _,
    readable_array_map fun p _ => readable_editorPin p _,
    readable_array_map fun p _ => readable_editorPin p _,
    .array (by simp),
    readable_array_map fun n hn => readable_editorNode (hg.nodes n hn) _,
    readable_array_map fun c hc => readable_editorConnection (hg.connections c hc) _,
    .array (by simp),
    readable_array_map fun v hv => readable_editorVariable (hg.globals v hv) _,
    readable_array_map fun l hl => readable_editorLiteral (hg.literals l hl) _, by simp⟩

/-! ## Reading it back -/

theorem ofPlaceJson?_placeJson {p : Place} (hp : p.IsSized) (hfinite : p.IsFinite) :
    ofPlaceJson? (placeJson p) = some p := by
  simp [ofPlaceJson?, placeJson, Json.field?, List.lookup_cons,
    Json.binary32?_ofBinary32 hp.1 hfinite.1, Json.binary32?_ofBinary32 hp.2 hfinite.2]

theorem ofEditorPin?_editorPin (p : Pin) : ofEditorPin? (editorPin p) = some p := by
  simp [ofEditorPin?, editorPin, Json.field?, List.lookup_cons, Json.text?]

theorem ofEditorNode?_editorNode {n : Node} (hn : n.place.IsSized) (hfinite : n.place.IsFinite) :
    ofEditorNode? (editorNode n) = some n := by
  simp [ofEditorNode?, editorNode, Json.field?, List.lookup_cons, Json.only?,
    ofPlaceJson?_placeJson hn hfinite]

theorem ofKindWord?_word (b : Bool) : ofKindWord? (if b then "True" else "False") = some b := by
  cases b <;> decide

theorem ofEditorConnection?_editorConnection (c : Connection) :
    ofEditorConnection? (editorConnection c) = some c := by
  simp [ofEditorConnection?, editorConnection, Json.field?, List.lookup_cons, Json.text?,
    ofKindWord?_word]

theorem ofEditorVariable?_editorVariable (v : Variable) :
    ofEditorVariable? (editorVariable v) = some v := by
  simp [ofEditorVariable?, editorVariable, Json.field?, List.lookup_cons, Json.text?]

theorem ofEditorLiteral?_editorLiteral {l : Literal} (hplace : l.place.IsSized)
    (hvalue : l.value.IsProper) (hfinite : l.place.IsFinite) :
    ofEditorLiteral? (editorLiteral l) = some l := by
  simp [ofEditorLiteral?, editorLiteral, Json.field?, List.lookup_cons, Json.text?,
    ofPlaceJson?_placeJson hplace hfinite, Binary32.ofText?_text hvalue]

/-- What is read from the document of a graph is the graph. -/
theorem ofEditor?_editorJson {g : Graph} (hg : g.IsSized) (hfinite : g.HasFinitePlaces) :
    ofEditor? g.editorJson = some g := by
  have hpins : ∀ pins : List Pin,
      (Json.array (pins.map editorPin)).listOf? ofEditorPin? = some pins :=
    fun _ => Json.listOf?_array fun p _ => ofEditorPin?_editorPin p
  have hnodes := Json.listOf?_array fun n hn =>
    ofEditorNode?_editorNode (hg.nodes n hn).2.2.2 (hfinite.nodes n hn)
  have hconnections : (Json.array (g.connections.map editorConnection)).listOf?
      ofEditorConnection? = some g.connections :=
    Json.listOf?_array fun c _ => ofEditorConnection?_editorConnection c
  have hglobals : (Json.array (g.globals.map editorVariable)).listOf? ofEditorVariable? =
      some g.globals :=
    Json.listOf?_array fun v _ => ofEditorVariable?_editorVariable v
  have hliterals := Json.listOf?_array fun l hl =>
    ofEditorLiteral?_editorLiteral (hg.literals l hl).2.1 (hg.literals l hl).2.2
      (hfinite.literals l hl)
  simp [ofEditor?, editorJson, Json.field?, List.lookup_cons, hpins, hnodes, hconnections, hglobals,
    hliterals]

/-- **The editor's document loses nothing.** The text is JSON, and what the editor reads from it is
the graph; so no two graphs have the same text. -/
theorem editorText_recovers {g : Graph} (hg : g.IsSized) (hfinite : g.HasFinitePlaces) :
    (∃ j, Json.parse g.editorText = .ok j ∧ ofEditor? j = some g) ∧
      ∀ g' : Graph, g'.IsSized → g'.HasFinitePlaces → g'.editorText = g.editorText → g' = g := by
  have hparse : ∀ {g : Graph}, g.IsSized → Json.parse g.editorText = .ok g.editorJson :=
    fun hg => Json.parse_chars (readable_editorJson hg 123) Json.Layout.isBlank_pretty 0
  refine ⟨⟨g.editorJson, hparse hg, ofEditor?_editorJson hg hfinite⟩, ?_⟩
  intro g' hg' hfinite' htext
  have hjson : g'.editorJson = g.editorJson := by
    have h := hparse hg'
    rw [htext, hparse hg] at h
    exact (Except.ok.inj h).symm
  have hread := ofEditor?_editorJson hg' hfinite'
  rw [hjson, ofEditor?_editorJson hg hfinite] at hread
  exact (Option.some.inj hread).symm

/-- A graph whose names need escaping, with ids and pins at the ends of their ranges, a negative
zero and the smallest number as a place, and literals that are no numbers. -/
def awkward : Graph where
  inputs := [{ name := "say \"yes\"\\" }, { name := "" }]
  outputs := [{ name := "a\tb\r\n\x01\x1f", dataType := "é/😀" }]
  globals := [⟨"v", -2147483648, "Vector2", "\x7b\"x\":0.0,\"y\":-1e-7\x7d"⟩]
  nodes := [⟨69, 2147483647, ⟨.finite true 0, .finite false 1⟩, -2147483648⟩]
  literals := [⟨0, "Value", ⟨.ofInt 16777216, .ofInt (-100)⟩, .nan⟩,
    ⟨0, "[]", Place.origin, .infinite true⟩]
  connections := [.data 0 18446744073709551615 Ref.endpoint 7, .execution Ref.endpoint Ref.endpoint]
  counter := 2147483647

theorem editorText_recovers_awkward :
    awkward.IsSized ∧ awkward.HasFinitePlaces ∧
      (∃ j, Json.parse awkward.editorText = .ok j ∧ ofEditor? j = some awkward) ∧
      ∀ g' : Graph, g'.IsSized → g'.HasFinitePlaces → g'.editorText = awkward.editorText →
        g' = awkward := by
  have hsized : awkward.IsSized :=
    ⟨by decide +kernel, by decide +kernel, by decide +kernel, by decide +kernel, by decide⟩
  have hfinite : awkward.HasFinitePlaces := ⟨by decide +kernel, by decide +kernel⟩
  exact ⟨hsized, hfinite, editorText_recovers hsized hfinite⟩

end Graph

end ScriptGraph
