import ScriptGraph.Proofs.Lowering.Arity
import ScriptGraph.Proofs.Lowering.Literals

/-!
# Places follow public values

Public values stand apart from the other literals, and the nodes that read one stand apart from the
other nodes. While a program is lowered, a wire carries a mark that says whether it is a public value;
the mark is copied with the wire, through names, assignments and branches, and no operation passes it
on. So a mark never lies, and the place of a node, which is chosen by marks, can be read off the
graph:

* `Graph.IsPublic`, `Graph.ReadsPublicAt` — public values in a graph, and the inputs that they feed;
* `Node.Placed` — where a node stands, by which of its inputs are public values;
* `Builder.Honest` — a wire whose mark says what it leads to; `Steps.isPublic_iff` says that this
  does not change;
* `Site.Marked` — all wires are honest, and the nodes so far are placed by their inputs;
* `ExprLowered.marked`, `StmtLowered.marked`, `ProgramLowered.placed` — lowering keeps this;
* `lower_placed` — the places of literals and nodes in the graph of a program.
-/

namespace ScriptGraph

open Lowering Relation

/-! ## Public values in a graph -/

namespace Graph

/-- An id is that of a public value. -/
def IsPublic (g : Graph) (ref : Ref) : Prop :=
  ∃ l ∈ g.literals, l.place = Place.publicValue ∧ l.ref = ref

/-- A public value feeds an input of a node. -/
def ReadsPublicAt (g : Graph) (n : Node) (pin : Nat) : Prop :=
  ∃ c ∈ g.feedsOf n.ref, c.targetPin = pin ∧ g.IsPublic c.source

/-- A public value feeds a node. -/
def ReadsPublic (g : Graph) (n : Node) : Prop :=
  ∃ c ∈ g.feedsOf n.ref, g.IsPublic c.source

end Graph

/-- Where a node stands, by whether it reads a public value and whether it chooses one, at the input
for the new value of an assignment. -/
structure Node.Placed (n : Node) (reads chooses : Prop) : Prop where
  /-- the place of consumers is for nodes that read a public value -/
  consumer : n.place = Place.publicConsumer → reads
  /-- nodes that read one stand there, but for writes and for the nodes that branches need -/
  reader : reads → n.opcode ≠ Opcode.writeGlobal → n.opcode ≠ Opcode.and →
    n.opcode ≠ Opcode.select → n.place = Place.publicConsumer
  /-- writes have a place of their own -/
  write : n.opcode = Opcode.writeGlobal → n.place = Place.globalWrite
  /-- a choice follows the new value -/
  select : n.opcode = Opcode.select → (n.place = Place.publicConsumer ↔ chooses)
  /-- all others are at the origin -/
  other : n.opcode ≠ Opcode.writeGlobal → n.place ≠ Place.publicConsumer → n.place = Place.origin

/-! ## Marks -/

namespace Wire

/-- One of the wires is marked as public. -/
def AnyPublic (ws : List Wire) : Prop :=
  ∃ w ∈ ws, w.isPublic = true

/-- The wire at some position is marked as public. -/
def PublicAt (ws : List Wire) (pin : Nat) : Prop :=
  ∃ w, ws[pin]? = some w ∧ w.isPublic = true

end Wire

/-- The connections that `feeds` adds, by position. -/
theorem mem_feeds_iff {target : Ref} {pin : Nat} {ws : List Wire} {c : Connection} :
    c ∈ feeds target pin ws ↔
      ∃ i w, ws[i]? = some w ∧ c = .data w.ref w.pin target (pin + i) := by
  induction ws generalizing pin with
  | nil => simp [feeds]
  | cons v ws ih =>
    rw [feeds, List.mem_cons, ih]
    constructor
    · rintro (rfl | ⟨i, w, hw, rfl⟩)
      · exact ⟨0, v, rfl, rfl⟩
      · exact ⟨i + 1, w, hw, by rw [Nat.add_assoc, Nat.add_comm 1 i]⟩
    · rintro ⟨_ | i, w, hw, rfl⟩
      · exact .inl (by rw [← Option.some.inj hw]; rfl)
      · exact .inr ⟨i, w, hw, by rw [Nat.add_assoc, Nat.add_comm 1 i]⟩

namespace Graph

variable {g : Graph} {n : Node} {ws : List Wire}

/-- Where marks are right, they say which inputs public values feed. -/
theorem readsPublicAt_iff (hf : g.feedsOf n.ref = feeds n.ref 0 ws)
    (hw : ∀ w ∈ ws, (w.isPublic = true ↔ g.IsPublic w.ref)) (pin : Nat) :
    g.ReadsPublicAt n pin ↔ Wire.PublicAt ws pin := by
  rw [ReadsPublicAt, hf]
  constructor
  · rintro ⟨c, hc, hpin, hpublic⟩
    obtain ⟨i, w, hi, rfl⟩ := mem_feeds_iff.mp hc
    obtain rfl : i = pin := (Nat.zero_add i).symm.trans hpin
    exact ⟨w, hi, (hw w (List.mem_of_getElem? hi)).mpr hpublic⟩
  · rintro ⟨w, hi, hm⟩
    exact ⟨_, mem_feeds_iff.mpr ⟨pin, w, hi, rfl⟩, Nat.zero_add pin,
      (hw w (List.mem_of_getElem? hi)).mp hm⟩

theorem readsPublic_iff (hf : g.feedsOf n.ref = feeds n.ref 0 ws)
    (hw : ∀ w ∈ ws, (w.isPublic = true ↔ g.IsPublic w.ref)) :
    g.ReadsPublic n ↔ Wire.AnyPublic ws := by
  rw [ReadsPublic, hf]
  constructor
  · rintro ⟨c, hc, hpublic⟩
    obtain ⟨-, -, w, hmem, hs, -⟩ := mem_feeds hc
    exact ⟨w, hmem, (hw w hmem).mpr (hs ▸ hpublic)⟩
  · rintro ⟨w, hmem, hm⟩
    obtain ⟨i, hi⟩ := List.mem_iff_getElem?.mp hmem
    exact ⟨_, mem_feeds_iff.mpr ⟨i, w, hi, rfl⟩, (hw w hmem).mp hm⟩

end Graph

/-! ## Places by marks -/

theorem Place.origin_ne_publicConsumer : Place.origin ≠ Place.publicConsumer := by
  decide +kernel

theorem Place.globalWrite_ne_publicConsumer : Place.globalWrite ≠ Place.publicConsumer := by
  decide +kernel

theorem placeFor_eq_publicConsumer_iff (readsPublic : Bool) :
    placeFor readsPublic = Place.publicConsumer ↔ readsPublic = true := by
  cases readsPublic with
  | false => exact iff_of_false Place.origin_ne_publicConsumer Bool.false_ne_true
  | true => exact iff_of_true rfl rfl

theorem placeFor_of_ne {readsPublic : Bool} (h : placeFor readsPublic ≠ Place.publicConsumer) :
    placeFor readsPublic = Place.origin := by
  cases readsPublic with
  | false => rfl
  | true => exact absurd rfl h

/-- The place of a node follows from the marks of its inputs. -/
def Node.PlacedBy (n : Node) (inputs : List Wire) : Prop :=
  n.Placed (Wire.AnyPublic inputs) (Wire.PublicAt inputs 1)

namespace Node

variable {opcode : Opcode} {ref linked : Ref}

/-- A node that is placed by all its inputs. -/
theorem placedBy_any (inputs : List Wire) (hw : opcode ≠ Opcode.writeGlobal)
    (hs : opcode ≠ Opcode.select) :
    PlacedBy ⟨opcode, ref, placeFor (inputs.any (·.isPublic)), linked⟩ inputs := by
  have hany : placeFor (inputs.any (·.isPublic)) = Place.publicConsumer ↔
      Wire.AnyPublic inputs := by
    rw [placeFor_eq_publicConsumer_iff, List.any_eq_true]
    rfl
  exact ⟨hany.mp, fun h _ _ _ => hany.mpr h, fun h => absurd h hw, fun h => absurd h hs,
    fun _ => placeFor_of_ne⟩

/-- A node without inputs stays at the origin. -/
theorem placedBy_nil (hw : opcode ≠ Opcode.writeGlobal) :
    PlacedBy ⟨opcode, ref, Place.origin, linked⟩ [] where
  consumer h := absurd h Place.origin_ne_publicConsumer
  reader h := by simp [Wire.AnyPublic] at h
  write h := absurd h hw
  select _ := iff_of_false Place.origin_ne_publicConsumer (by simp [Wire.PublicAt])
  other _ _ := rfl

/-- So does the conjunction of two conditions. -/
theorem placedBy_and (inputs : List Wire) :
    PlacedBy ⟨Opcode.and, ref, Place.origin, linked⟩ inputs where
  consumer h := absurd h Place.origin_ne_publicConsumer
  reader _ _ h _ := absurd rfl h
  write h := absurd h (show Opcode.and ≠ Opcode.writeGlobal by decide)
  select h := absurd h (show Opcode.and ≠ Opcode.select by decide)
  other _ _ := rfl

/-- A choice is placed by its new value. -/
theorem placedBy_select (condition new previous : Wire) :
    PlacedBy ⟨Opcode.select, ref, placeFor new.isPublic, linked⟩ [condition, new, previous] := by
  have hnew := placeFor_eq_publicConsumer_iff new.isPublic
  have hat : new.isPublic = true ↔ Wire.PublicAt [condition, new, previous] 1 :=
    ⟨fun h => ⟨new, rfl, h⟩, fun ⟨w, hw, h⟩ => Option.some.inj hw ▸ h⟩
  refine ⟨fun h => ⟨new, by simp, hnew.mp h⟩, fun _ _ _ h => absurd rfl h, fun h => ?_,
    fun _ => hnew.trans hat, fun _ => placeFor_of_ne⟩
  exact absurd h (show Opcode.select ≠ Opcode.writeGlobal by decide)

/-- A write has a place of its own. -/
theorem placedBy_write (inputs : List Wire) :
    PlacedBy ⟨Opcode.writeGlobal, ref, Place.globalWrite, linked⟩ inputs where
  consumer h := absurd h Place.globalWrite_ne_publicConsumer
  reader _ h _ _ := absurd rfl h
  write _ := rfl
  select h := absurd h (show Opcode.writeGlobal ≠ Opcode.select by decide)
  other h _ := absurd rfl h

end Node

/-- A table of builtins that leaves the access to variables and the choice between values to
lowering. -/
structure Builtins.Reserved (t : Builtins) : Prop where
  /-- nothing is listed below zero -/
  regular : t.Regular
  /-- no function is a choice -/
  functions : ∀ className member, t.member? className member ≠ some Opcode.select
  /-- no operator is a choice -/
  operators : ∀ (op : BinaryOp) (vector : Bool), t.operator? op.symbol vector ≠ some Opcode.select

/-- The standard table does. -/
theorem Builtins.standard_reserved : Builtins.standard.Reserved where
  regular := standard_regular
  functions className member h := by
    have hown : Opcode.select ∉ own :=
      (standard_callable _ (mem_entries h) (by simp [isCallable])).1
    exact hown (by decide)
  operators op vector h := standard_own _ (mem_operators h) (by decide)

section

variable {t : Builtins} (ht : t.Reserved) {opcode : Opcode}

include ht

theorem Builtins.Reserved.ne_writeGlobal {name : String} (ho : t.get? name = some opcode) :
    opcode ≠ Opcode.writeGlobal := by
  rintro rfl
  exact absurd (ht.regular.nonneg ho) (by decide)

/-- A node with inputs that lowering chose is placed by them. -/
theorem Emission.placedBy {place : Place} {inputs : List Wire} (h : Emission t opcode place inputs)
    (ref : Ref) : Node.PlacedBy ⟨opcode, ref, place, Ref.unlinked⟩ inputs := by
  have hone (w : Wire) (hw : opcode ≠ Opcode.writeGlobal) (hs : opcode ≠ Opcode.select) :
      Node.PlacedBy ⟨opcode, ref, placeFor w.isPublic, Ref.unlinked⟩ [w] := by
    simpa using Node.placedBy_any [w] hw hs
  cases h with
  | constant h => exact Node.placedBy_nil (ht.ne_writeGlobal h)
  | negate w => exact hone w (by decide) (by decide)
  | not w => exact hone w (by decide) (by decide)
  | split w =>
    refine hone w ?_ ?_
    · split <;> decide
    · split <;> decide
  | @operator op l r _ h =>
    have hs : opcode ≠ Opcode.select := fun hs => ht.operators op _ (hs ▸ h)
    simpa using Node.placedBy_any [l, r]
      (ht.ne_writeGlobal h) hs
  | and outer inner => exact Node.placedBy_and _
  | select condition new previous => exact Node.placedBy_select _ _ _

/-- The node of a call is placed by its arguments. -/
theorem CallOpcode.placedBy (h : CallOpcode t opcode) (ref : Ref) (inputs : List Wire) :
    Node.PlacedBy ⟨opcode, ref, placeFor (inputs.any (·.isPublic)), Ref.unlinked⟩ inputs := by
  cases h with
  | function h =>
    exact Node.placedBy_any inputs (ht.ne_writeGlobal h) fun hs => ht.functions _ _ (hs ▸ h)
  | construct h =>
    obtain ⟨hown, -⟩ := constructor?_free h
    refine Node.placedBy_any inputs ?_ ?_ <;>
    · rintro rfl
      exact hown (by decide)

end

/-! ## Honest wires -/

/-- A step makes literals under new ids only. -/
theorem Step.literals_eq {t : Builtins} {s s' : Site} (h : Step t s s') :
    ∃ ls, s'.builder.graph.literals = s.builder.graph.literals ++ ls ∧
      ∀ l ∈ ls, l.ref = s.builder.next := by
  have hsame : s'.builder.graph.literals = s.builder.graph.literals → ∃ ls,
      s'.builder.graph.literals = s.builder.graph.literals ++ ls ∧
        ∀ l ∈ ls, l.ref = s.builder.next :=
    fun h => ⟨[], by rw [h, List.append_nil], by simp⟩
  cases h with
  | expr h =>
    cases h with
    | number calls b value => exact ⟨[_], rfl, by simp⟩
    | _ => exact hsame rfl
  | publicValue b name => exact ⟨[_], rfl, by simp⟩
  | @output b index w hw hi => exact hsame (b.ensureOutput_literals index)
  | _ => exact hsame rfl

/-- So an id that was given does not become that of a public value, and stays one if it was. -/
theorem Step.isPublic_iff {t : Builtins} {s s' : Site} (h : Step t s s') {ref : Ref}
    (hr : ref < s.builder.next) :
    s'.builder.graph.IsPublic ref ↔ s.builder.graph.IsPublic ref := by
  obtain ⟨ls, heq, hnew⟩ := h.literals_eq
  constructor
  · rintro ⟨l, hl, hp, rfl⟩
    rw [heq] at hl
    rcases List.mem_append.mp hl with hl | hl
    · exact ⟨l, hl, hp, rfl⟩
    · exact absurd (hnew l hl) (Int.ne_of_lt hr)
  · rintro ⟨l, hl, hp⟩
    exact ⟨l, heq ▸ List.mem_append_left _ hl, hp⟩

theorem Steps.isPublic_iff {t : Builtins} {s s' : Site} (h : Steps t s s') {ref : Ref}
    (hr : ref < s.builder.next) :
    s'.builder.graph.IsPublic ref ↔ s.builder.graph.IsPublic ref := by
  induction h with
  | refl => exact Iff.rfl
  | tail h₁ h₂ ih =>
    exact (h₂.isPublic_iff (Int.lt_of_lt_of_le hr (Steps.le h₁).next)).trans ih

/-- A wire that has a value and is marked as public exactly if this is a public value. -/
def Builder.Honest (b : Builder) (w : Wire) : Prop :=
  b.Yields w ∧ (w.isPublic = true ↔ b.graph.IsPublic w.ref)

/-- The only wire of a condition that is there. -/
theorem Builder.Honest.some {b : Builder} {w : Wire} (h : b.Honest w) :
    ∀ v ∈ some w, b.Honest v := by
  rintro v ⟨⟩
  exact h

namespace Site.Valid

variable {t : Builtins} {first : Ref} {s s' : Site} {w : Wire}

theorem refs_nodup (hv : s.Valid t first) : s.builder.graph.refs.Nodup :=
  (List.nodup_append.mp hv.nodup).1

/-- A wire with a value has an id that was given, or it is an input of the method. -/
theorem ref_lt (hv : s.Valid t first) (hw : s.builder.Yields w) : w.ref < s.builder.next := by
  rcases hw with ⟨he, -⟩ | ⟨l, hl, hr⟩ | ⟨n, hn, hr, -⟩
  · exact he ▸ hv.endpoint_lt
  · exact hr ▸ (hv.mem_iff.mp (List.mem_append_left _ (Graph.literal_ref_mem hl))).2
  · exact hr ▸ hv.node_lt hn

/-- An honest wire stays honest. -/
theorem honest_mono (hv : s.Valid t first) (hr : Steps t s s') (hw : s.builder.Honest w) :
    s'.builder.Honest w :=
  ⟨hw.1.mono hr.le, hw.2.trans (hr.isPublic_iff (hv.ref_lt hw.1)).symm⟩

/-- No node is a public value. -/
theorem honest_node (hv : s.Valid t first) {n : Node} (hn : n ∈ s.builder.graph.nodes)
    (hy : s.builder.Yields w) (hr : w.ref = n.ref) (hm : w.isPublic = false) :
    s.builder.Honest w := by
  refine ⟨hy, iff_of_false (by rw [hm]; exact Bool.false_ne_true) ?_⟩
  rintro ⟨l, hl, -, hl'⟩
  exact Graph.node_ref_ne_literal hv.refs_nodup hn hl (hl'.trans hr).symm

/-- Neither is an input of the method. -/
theorem honest_input (hv : s.Valid t first) {type : ValueType} {pin : Nat}
    (hy : s.builder.Yields (.atPin type Ref.endpoint pin)) :
    s.builder.Honest (.atPin type Ref.endpoint pin) := by
  refine ⟨hy, iff_of_false Bool.false_ne_true ?_⟩
  rintro ⟨l, hl, -, hr⟩
  have hpos := hv.pos_of_mem (List.mem_append_left _ (Graph.literal_ref_mem hl))
  have hne : ¬0 < Ref.endpoint := by decide
  rw [hr] at hpos
  exact hne hpos

/-- The value of a literal is public if it stands there. -/
theorem honest_literal (hv : s.Valid t first) {l : Literal} (hl : l ∈ s.builder.graph.literals)
    (hr : w.ref = l.ref) (hm : w.isPublic = true ↔ l.place = Place.publicValue) :
    s.builder.Honest w := by
  refine ⟨.inr (.inl ⟨l, hl, hr.symm⟩), hm.trans ⟨fun hp => ⟨l, hl, hp, hr.symm⟩, ?_⟩⟩
  rintro ⟨l', hl', hp, hr'⟩
  rwa [Graph.literal_eq_of_ref_eq hv.refs_nodup hl hl' (hr.symm.trans hr'.symm)]

end Site.Valid

/-! ## Sites with honest wires -/

/-- The connections into a node come from honest wires, and their marks say where it stands. -/
def Builder.Places (b : Builder) (n : Node) : Prop :=
  ∃ ws, b.graph.feedsOf n.ref = feeds n.ref 0 ws ∧ (∀ w ∈ ws, b.Honest w) ∧ n.PlacedBy ws

/-- A valid site where names stand for honest wires only, and nodes are placed by honest wires. -/
structure Site.Marked (t : Builtins) (first : Ref) (s : Site) : Prop extends s.Valid t first where
  /-- names stand for honest wires -/
  scope : ∀ name wire, s.builder.scope.get? name = some (.wire wire) → s.builder.Honest wire
  /-- nodes are placed by honest wires -/
  nodes : ∀ n ∈ s.builder.graph.nodes, s.builder.Places n

namespace Site.Marked

variable {t : Builtins} {first : Ref} {s s' : Site} {calls : List (Ref × List Wire)} {b b' : Builder}

/-- A node that is placed stays so. -/
theorem places_mono (hs : s.Marked t first) (hr : Steps t s s') {n : Node}
    (hn : n ∈ s.builder.graph.nodes) : s'.builder.Places n := by
  obtain ⟨ws, hf, hw, hp⟩ := hs.nodes n hn
  exact ⟨ws, (hr.feedsOf_node hs.toValid hn).trans hf,
    fun w hm => hs.toValid.honest_mono hr (hw w hm), hp⟩

/-- A run that binds nothing keeps wires honest if it places the nodes that it adds. -/
theorem grow (hs : s.Marked t first) (hr : Steps t s s')
    (hscope : s'.builder.scope = s.builder.scope) (ns : List Node)
    (hn : s'.builder.graph.nodes = s.builder.graph.nodes ++ ns)
    (hns : ∀ n ∈ ns, s'.builder.Places n) : s'.Marked t first := by
  refine ⟨hr.valid hs.toValid, fun name wire hb => ?_, fun n hm => ?_⟩
  · rw [hscope] at hb
    exact hs.toValid.honest_mono hr (hs.scope name wire hb)
  · rw [hn] at hm
    rcases List.mem_append.mp hm with hm | hm
    · exact hs.places_mono hr hm
    · exact hns n hm

/-- So does one that adds no node. -/
theorem quiet (hs : s.Marked t first) (hr : Steps t s s')
    (hscope : s'.builder.scope = s.builder.scope)
    (hn : s'.builder.graph.nodes = s.builder.graph.nodes) : s'.Marked t first :=
  hs.grow hr hscope [] (by rw [hn, List.append_nil]) (by simp)

/-- A step that binds a name keeps wires honest if the name stands for no other wire. -/
theorem insert (hs : Site.Marked t first ⟨[], b⟩) (hstep : Step t ⟨[], b⟩ ⟨[], b'⟩) {name : String}
    {binding : Binding} (hscope : b'.scope = b.scope.insert name binding)
    (hn : b'.graph.nodes = b.graph.nodes) (hb : ∀ wire, binding = .wire wire → b.Honest wire) :
    Site.Marked t first ⟨[], b'⟩ := by
  have hr : Steps t ⟨[], b⟩ ⟨[], b'⟩ := .single hstep
  refine ⟨hr.valid hs.toValid, fun other wire hf => ?_, fun n hm => ?_⟩
  · refine hs.toValid.honest_mono hr ?_
    have hf : b'.scope.get? other = some (.wire wire) := hf
    rw [hscope] at hf
    by_cases ho : other = name
    · rw [ho, Dictionary.get?_insert_self] at hf
      exact hb wire (Option.some.inj hf)
    · rw [Dictionary.get?_insert_of_ne ho] at hf
      exact hs.scope other wire hf
  · exact hs.places_mono hr (hn ▸ hm)

/-- A name is bound to an honest wire. -/
theorem bind (hs : Site.Marked t first ⟨[], b⟩) (name : String) {w : Wire} (hw : b.Honest w) :
    Site.Marked t first ⟨[], b.bind name (.wire w)⟩ :=
  hs.insert (.bind hw.1) rfl rfl fun _ h => Binding.wire.inj h ▸ hw

/-- A node is added with all its inputs. -/
theorem emit (hs : Site.Marked t first ⟨calls, b⟩) {opcode : Opcode} {place : Place} {linked : Ref}
    {inputs : List Wire}
    (hr : Steps t ⟨calls, b⟩ ⟨calls, b.emit opcode place linked inputs⟩)
    (hw : ∀ w ∈ inputs, b.Honest w)
    (hp : Node.PlacedBy ⟨opcode, b.next, place, linked⟩ inputs) :
    Site.Marked t first ⟨calls, b.emit opcode place linked inputs⟩ := by
  refine hs.grow hr rfl [⟨opcode, b.next, place, linked⟩] rfl fun n hn => ?_
  rw [List.mem_singleton.mp hn]
  exact ⟨inputs, Builder.feedsOf_emit_self (hs.toValid.feedsOf_eq_nil (Int.le_refl _)) _ _ _ _,
    fun w hm => hs.toValid.honest_mono hr (hw w hm), hp⟩

/-- A node for an operation is added, and its outputs are honest. -/
theorem operate (ht : t.Reserved) (hs : Site.Marked t first ⟨calls, b⟩) {opcode : Opcode}
    {place : Place} {inputs : List Wire} (he : Emission t opcode place inputs)
    (hw : ∀ w ∈ inputs, b.Honest w) :
    Steps t ⟨calls, b⟩ ⟨calls, b.operate opcode place inputs⟩ ∧
      Site.Marked t first ⟨calls, b.operate opcode place inputs⟩ ∧
      ∀ type pin, (b.operate opcode place inputs).Honest (.atPin type b.next pin) := by
  have hr : Steps t ⟨calls, b⟩ ⟨calls, b.operate opcode place inputs⟩ :=
    .single (.expr (.node he fun w hm => (hw w hm).1))
  have hs' := hs.emit hr hw (he.placedBy ht b.next)
  refine ⟨hr, hs', fun type pin => ?_⟩
  exact hs'.toValid.honest_node (n := ⟨opcode, b.next, place, Ref.unlinked⟩)
    (by simp [Builder.emit]) (b.yields_operate _ _ _ _ _) rfl rfl

/-- A call takes its id. -/
theorem openCall (hs : Site.Marked t first ⟨calls, b⟩) :
    Site.Marked t first ⟨(b.next, []) :: calls, b.reserve⟩ :=
  hs.quiet (.single (.expr (.openCall calls b))) rfl rfl

/-- The node of a call is added, whose arguments it has got. -/
theorem closeCall (ht : t.Reserved) {ref : Ref} {ws : List Wire}
    (hs : Site.Marked t first ⟨(ref, ws) :: calls, b⟩) {opcode : Opcode} (ho : CallOpcode t opcode)
    (hw : ∀ w ∈ ws, b.Honest w) (type : ValueType) :
    Site.Marked t first
        ⟨calls, b.addNode ⟨opcode, ref, placeFor (ws.any (·.isPublic)), Ref.unlinked⟩⟩ ∧
      (b.addNode ⟨opcode, ref, placeFor (ws.any (·.isPublic)), Ref.unlinked⟩).Honest
        (.ofRef type ref) := by
  have hr : Steps t ⟨(ref, ws) :: calls, b⟩
      ⟨calls, b.addNode ⟨opcode, ref, placeFor (ws.any (·.isPublic)), Ref.unlinked⟩⟩ :=
    .single (.expr (.closeCall ho))
  have hs' := hs.grow hr rfl [⟨opcode, ref, placeFor (ws.any (·.isPublic)), Ref.unlinked⟩] rfl
    fun n hn => by
      rw [List.mem_singleton.mp hn]
      exact ⟨ws, hs.gathered (ref, ws) (List.mem_cons_self ..),
        fun w hm => hs.toValid.honest_mono hr (hw w hm), ho.placedBy ht ref ws⟩
  exact ⟨hs', hs'.toValid.honest_node
    (n := ⟨opcode, ref, placeFor (ws.any (·.isPublic)), Ref.unlinked⟩) (by simp [Builder.addNode])
    (b.yields_addNode _ _ rfl) rfl rfl⟩

/-- A bound name is read. -/
theorem afterReading (hs : Site.Marked t first ⟨calls, b⟩) {name : String} {binding : Binding}
    (hb : b.scope.get? name = some binding) :
    Site.Marked t first ⟨calls, b.afterReading binding⟩ ∧
      (b.afterReading binding).Honest (b.reading binding) := by
  obtain ⟨hr, hy⟩ := steps_afterReading (t := t) (hs.sound.scope name binding hb) calls
  cases binding with
  | wire wire => exact ⟨hs, hs.scope name wire hb⟩
  | parameter type pin => exact ⟨hs, hs.toValid.honest_input hy⟩
  | globalVar type ref =>
    have hs' : Site.Marked t first ⟨calls, b.emit Opcode.readGlobal Place.origin ref []⟩ :=
      hs.emit hr.steps (by simp) (Node.placedBy_nil (by decide))
    exact ⟨hs', hs'.toValid.honest_node (n := ⟨Opcode.readGlobal, b.next, Place.origin, ref⟩)
      (by simp [Builder.emit]) hy rfl rfl⟩

end Site.Marked

/-! ## Expressions -/

section

variable {t : Builtins} {first : Ref}

mutual

/-- Lowering an expression keeps wires honest, and yields an honest one. -/
theorem ExprLowered.marked {e : Expr} {b b' : Builder} {w : Wire} (h : ExprLowered t e b w b')
    (ht : t.Reserved) {calls : List (Ref × List Wire)} (hs : Site.Marked t first ⟨calls, b⟩) :
    Site.Marked t first ⟨calls, b'⟩ ∧ b'.Honest w := by
  cases h with
  | number value b =>
    have hr := ((ExprLowered.number (t := t) value b).steps hs.sound calls).1.steps
    have hs₁ := hs.quiet hr rfl rfl
    have hne : Place.origin ≠ Place.publicValue := by decide +kernel
    exact ⟨hs₁, hs₁.toValid.honest_literal (l := ⟨b.next, "Value", Place.origin, value⟩)
      (by simp [Builder.addLiteral, Builder.note]) rfl (iff_of_false Bool.false_ne_true hne)⟩
  | bound hb => exact hs.afterReading hb
  | constant hb ho =>
    obtain ⟨-, hs₁, hw⟩ := hs.operate ht (.constant ho) (by simp)
    exact ⟨hs₁, hw _ 0⟩
  | neg h =>
    obtain ⟨hs₁, hw⟩ := h.marked ht hs
    obtain ⟨-, hs₂, hw₂⟩ := hs₁.operate ht (.negate _) (by simpa using hw)
    exact ⟨hs₂, hw₂ _ 0⟩
  | not h =>
    obtain ⟨hs₁, hw⟩ := h.marked ht hs
    obtain ⟨-, hs₂, hw₂⟩ := hs₁.operate ht (.not _) (by simpa using hw)
    exact ⟨hs₂, hw₂ _ 0⟩
  | binary hl hr ho =>
    obtain ⟨hs₁, hw₁⟩ := hl.marked ht hs
    obtain ⟨hs₂, hw₂⟩ := hr.marked ht hs₁
    have hw₁ := hs₁.toValid.honest_mono (hr.steps hs₁.sound calls).1.steps hw₁
    obtain ⟨-, hs₃, hw₃⟩ := hs₂.operate ht (.operator ho) (by simpa using ⟨hw₁, hw₂⟩)
    exact ⟨hs₃, hw₃ _ 0⟩
  | component hb hp =>
    obtain ⟨hs₁, hw⟩ := hs.afterReading hb
    obtain ⟨-, hs₂, hw₂⟩ := hs₁.operate ht (.split _) (by simpa using hw)
    exact ⟨hs₂, hw₂ _ _⟩
  | function hb ho ha =>
    obtain ⟨hs₁, hws⟩ := ha.marked ht [] rfl hs.openCall
    exact hs₁.closeCall ht (.function ho) hws _
  | construct ho ha =>
    obtain ⟨hs₁, hws⟩ := ha.marked ht [] rfl hs.openCall
    exact hs₁.closeCall ht (.construct ho) hws _

/-- So does lowering arguments. -/
theorem ArgsLowered.marked {target : Ref} {pin : Nat} {args : List Expr} {b b' : Builder}
    {ws : List Wire} (h : ArgsLowered t target pin args b ws b') (ht : t.Reserved)
    (taken : List Wire) (hp : taken.length = pin) {calls : List (Ref × List Wire)}
    (hs : Site.Marked t first ⟨(target, taken) :: calls, b⟩) :
    Site.Marked t first ⟨(target, taken ++ ws) :: calls, b'⟩ ∧ ∀ w ∈ ws, b'.Honest w := by
  cases h with
  | nil => exact ⟨by simpa using hs, by simp⟩
  | @cons _ _ _ _ _ b₁ _ w ws h hs' =>
    subst hp
    obtain ⟨hs₁, hw⟩ := h.marked ht hs
    have hr : Steps t ⟨(target, taken) :: calls, b₁⟩ ⟨(target, taken ++ [w]) :: calls,
        b₁.connect (.data w.ref w.pin target taken.length)⟩ :=
      .single (.expr (.argument hw.1))
    have hs₂ := hs₁.quiet hr rfl rfl
    obtain ⟨hs₃, hws⟩ := hs'.marked ht (taken ++ [w]) List.length_append hs₂
    -- the wire was honest when it was carried to the call, and still is
    have hr' := (hs'.steps hs₂.sound (taken ++ [w]) List.length_append calls).steps
    have hw := hs₁.toValid.honest_mono (hr.trans hr') hw
    rw [List.append_assoc] at hs₃
    exact ⟨hs₃, List.forall_mem_cons.mpr ⟨hw, hws⟩⟩

end

/-! ## Statements -/

namespace Site.Marked

variable {b : Builder}

/-- A condition is conjoined with an outer one. -/
theorem afterConjunction (ht : t.Reserved) (hs : Site.Marked t first ⟨[], b⟩) {outer : Option Wire} {inner : Wire}
    (ho : ∀ w ∈ outer, b.Honest w) (hi : b.Honest inner) :
    Site.Marked t first ⟨[], b.afterConjunction outer inner⟩ ∧
      (b.afterConjunction outer inner).Honest (b.conjoined outer inner) := by
  cases outer with
  | none => exact ⟨hs, hi⟩
  | some outer =>
    obtain ⟨-, hs₁, hw⟩ := hs.operate ht (.and outer inner) (by simpa using ⟨ho outer rfl, hi⟩)
    exact ⟨hs₁, hw _ 0⟩

/-- A value is gated by a condition. -/
theorem afterGating (ht : t.Reserved) (hs : Site.Marked t first ⟨[], b⟩) {name : String}
    {binding : Binding} {new : Wire} {previous condition : Option Wire} (hb : b.scope.get? name = some binding)
    (hn : b.Honest new) (hp : ∀ w ∈ previous, b.Honest w) (hc : ∀ w ∈ condition, b.Honest w) :
    Site.Marked t first ⟨[], b.afterGating binding new previous condition⟩ ∧
      (b.afterGating binding new previous condition).Honest
        (b.gatedWire binding new previous condition) := by
  cases condition with
  | none => exact ⟨hs, hn⟩
  | some condition =>
    have hr := (steps_afterPrevious (t := t) (hs.sound.scope name binding hb)
      fun w hw => (hp w hw).1).1.steps
    have hprevious : Site.Marked t first ⟨[], b.afterPrevious binding previous⟩ ∧
        (b.afterPrevious binding previous).Honest (b.previousWire binding previous) := by
      cases previous with
      | none => exact hs.afterReading hb
      | some previous => exact ⟨hs, hp previous rfl⟩
    obtain ⟨hs₁, hw⟩ := hprevious
    have hcondition := hs.toValid.honest_mono hr (hc condition rfl)
    have hnew := hs.toValid.honest_mono hr hn
    obtain ⟨-, hs₂, hw₂⟩ := hs₁.operate ht (.select condition new (b.previousWire binding previous))
      (by simpa using ⟨hcondition, hnew, hw⟩)
    exact ⟨hs₂, hw₂ _ 0⟩

/-- A value is stored. -/
theorem afterStore (hs : Site.Marked t first ⟨[], b⟩) {name : String} {binding : Binding}
    (hb : b.scope.get? name = some binding) {value : Wire} (hv : b.Honest value) (last : Ref) :
    Site.Marked t first ⟨[], b.afterStore name value last binding⟩ := by
  have hstep : Step t ⟨[], b⟩ ⟨[], b.afterStore name value last binding⟩ :=
    step_afterStore (hs.sound.scope name binding hb) hv.1
  cases binding with
  | wire wire => exact hs.bind name hv
  | parameter type pin => exact hs.bind name hv
  | globalVar type ref =>
    have hr : Steps t ⟨[], b⟩ ⟨[], b.afterStore name value last (.globalVar type ref)⟩ :=
      .single hstep
    refine hs.grow hr rfl [⟨Opcode.writeGlobal, b.next, Place.globalWrite, ref⟩] rfl fun n hn => ?_
    rw [List.mem_singleton.mp hn]
    refine ⟨[value], ?_, ?_, Node.placedBy_write _⟩
    · rw [Builder.afterStore, Graph.feedsOf_execution (g := (b.emit _ _ _ _).graph) rfl]
      exact Builder.feedsOf_emit_self (hs.toValid.feedsOf_eq_nil (Int.le_refl _)) _ _ _ _
    · simpa using hs.toValid.honest_mono hr hv

end Site.Marked

/-- The right-hand side of an assignment. -/
theorem AssignedLowered.marked {name : String} {binding : Binding} {op : AssignOp} {e : Expr}
    {b b' : Builder} {new : Wire} {previous : Option Wire}
    (h : AssignedLowered t binding op e b new previous b') (ht : t.Reserved)
    (hs : Site.Marked t first ⟨[], b⟩)
    (hb : b.scope.get? name = some binding) :
    Site.Marked t first ⟨[], b'⟩ ∧ b'.Honest new ∧ ∀ w ∈ previous, b'.Honest w := by
  cases h with
  | plain hop he =>
    obtain ⟨hs₁, hw⟩ := he.marked ht hs
    exact ⟨hs₁, hw, by simp⟩
  | compound hop he ho =>
    obtain ⟨hs₁, hw₁⟩ := hs.afterReading hb
    obtain ⟨hs₂, hw₂⟩ := he.marked ht hs₁
    have hw₁ := hs₁.toValid.honest_mono (he.steps hs₁.sound []).1.steps hw₁
    obtain ⟨hr, hs₃, hw₃⟩ := hs₂.operate ht (.operator ho) (by simpa using ⟨hw₁, hw₂⟩)
    exact ⟨hs₃, hw₃ _ 0, (hs₂.toValid.honest_mono hr hw₁).some⟩

/-- The values of a return. -/
theorem OutputsLowered.marked {index : Nat} {values : List Expr} {b b' : Builder}
    (h : OutputsLowered t index values b b') (ht : t.Reserved)
    (hs : Site.Marked t first ⟨[], b⟩) (hi : index ≤ b.graph.outputs.length) : Site.Marked t first ⟨[], b'⟩ := by
  induction h with
  | nil index b => exact hs
  | @cons index value values b b₁ b₂ w h hs' ih =>
    obtain ⟨hs₁, hw⟩ := h.marked ht hs
    have ho : b₁.graph.outputs = b.graph.outputs := (h.steps hs.sound []).1.frame.2.2.2
    have hi₁ : index ≤ b₁.graph.outputs.length := ho ▸ hi
    have hs₂ := hs₁.quiet (.single (.output hw.1 hi₁)) rfl (b₁.ensureOutput_nodes index)
    exact ih hs₂ (Builder.lt_ensureOutput_outputs hi₁).1

/-- Entering the first body of a choice: the test, then its conjunction with the outer condition. -/
theorem ExprLowered.marked_then {test : Expr} {b b₁ : Builder} {w : Wire}
    (h : ExprLowered t test b w b₁) (ht : t.Reserved) (hs : Site.Marked t first ⟨[], b⟩)
    {outer : Option Wire} (ho : ∀ v ∈ outer, b.Honest v) :
    Site.Marked t first ⟨[], b₁.afterConjunction outer w⟩ ∧
      (∀ v ∈ some (b₁.conjoined outer w), (b₁.afterConjunction outer w).Honest v) ∧
      (b₁.afterConjunction outer w).Honest w := by
  have hr := (h.steps hs.sound []).1.steps
  obtain ⟨hs₁, hw⟩ := h.marked ht hs
  have ho₁ : ∀ v ∈ outer, b₁.Honest v := fun v hv => hs.toValid.honest_mono hr (ho v hv)
  obtain ⟨hs₂, hj⟩ := hs₁.afterConjunction ht ho₁ hw
  have hr' := (steps_afterConjunction (t := t) (fun v hv => (ho₁ v hv).1) hw.1).1.steps
  exact ⟨hs₂, hj.some, hs₁.toValid.honest_mono hr' hw⟩

/-- Entering the second body: the negated test, then the conjunction. -/
theorem Site.Marked.afterNegation (ht : t.Reserved) {b : Builder} (hs : Site.Marked t first ⟨[], b⟩)
    {w : Wire} (hw : b.Honest w) {outer : Option Wire} (ho : ∀ v ∈ outer, b.Honest v) {b₁ : Builder}
    (hn : b₁ = b.operate Opcode.not (placeFor w.isPublic) [w]) :
    Site.Marked t first ⟨[], b₁.afterConjunction outer (.ofRef .bool b.next)⟩ ∧
      ∀ v ∈ some (b₁.conjoined outer (.ofRef .bool b.next)),
        (b₁.afterConjunction outer (.ofRef .bool b.next)).Honest v := by
  subst hn
  obtain ⟨hr, hs₁, hw₁⟩ := hs.operate ht (.not w) (by simpa using hw)
  obtain ⟨hs₂, hj⟩ := hs₁.afterConjunction ht
    (fun v hv => hs.toValid.honest_mono hr (ho v hv)) (hw₁ .bool 0)
  exact ⟨hs₂, hj.some⟩

mutual

/-- Lowering a statement keeps wires honest. -/
theorem StmtLowered.marked {condition : Option Wire} {last last' : Ref} {s : Stmt} {b b' : Builder}
    (h : StmtLowered t condition last s b last' b') (ht : t.Reserved)
    (hs : Site.Marked t first ⟨[], b⟩) (hc : ∀ w ∈ condition, b.Honest w) :
    Site.Marked t first ⟨[], b'⟩ := by
  have hy : ∀ w ∈ condition, b.Yields w := fun w hw => (hc w hw).1
  cases h with
  | @declarePublic _ _ d _ _ type hp hi hd =>
    have hs₁ := hs.quiet (.single (.publicValue b d.name.text)) rfl rfl
    refine hs₁.bind _ (hs₁.toValid.honest_literal
      (l := ⟨b.next, d.name.text, Place.publicValue, .ofInt 0⟩) ?_ rfl (iff_of_true rfl rfl))
    simp [Builder.addLiteral]
  | declare hp hi he =>
    obtain ⟨hs₁, hw⟩ := he.marked ht hs
    exact hs₁.bind _ hw
  | @assign _ _ target _ _ _ _ b₁ binding new previous hb ha =>
    obtain ⟨hs₁, hn, hp⟩ := ha.marked ht hs hb
    have hr₁ := (ha.steps hs.sound (hs.sound.scope _ _ hb)).1.steps
    have hb₁ : b₁.scope.get? target.text = some binding := by rw [ha.scope_eq]; exact hb
    obtain ⟨hs₂, hk⟩ := hs₁.afterGating ht hb₁ hn hp
      fun w hw => hs.toValid.honest_mono hr₁ (hc w hw)
    exact hs₂.afterStore (by rw [b₁.scope_afterGating]; exact hb₁) hk last
  | branch he hthen =>
    obtain ⟨hs₁, hj, -⟩ := he.marked_then ht hs hc
    exact hthen.marked ht hs₁ hj
  | branchElse he hthen hnot helse =>
    obtain ⟨hs₁, hj, hw⟩ := he.marked_then ht hs hc
    have hs₂ := hthen.marked ht hs₁ hj
    -- the test and the outer condition are still honest behind the first body
    have hr₁ := (he.steps_then hs.sound hy).1.steps
    have hr₂ := hthen.steps hs₁.sound fun v hv => (hj v hv).1
    obtain ⟨hs₃, hj'⟩ := hs₂.afterNegation ht (hs₁.toValid.honest_mono hr₂ hw)
      (fun v hv => hs.toValid.honest_mono (hr₁.trans hr₂) (hc v hv)) hnot
    exact helse.marked ht hs₃ hj'
  | ret h =>
    have hs₁ := h.marked ht hs (Nat.zero_le _)
    exact hs₁.quiet (.single (.exit _ last)) rfl rfl
  | call h => exact (h.marked ht hs).1

/-- So does lowering statements one after another. -/
theorem BodyLowered.marked {condition : Option Wire} {last last' : Ref} {body : List Stmt}
    {b b' : Builder} (h : BodyLowered t condition last body b last' b')
    (ht : t.Reserved) (hs : Site.Marked t first ⟨[], b⟩) (hc : ∀ w ∈ condition, b.Honest w) :
    Site.Marked t first ⟨[], b'⟩ := by
  cases h with
  | nil => exact hs
  | cons h hret hs' =>
    have hr := h.steps hs.sound fun w hw => (hc w hw).1
    exact hs'.marked ht (h.marked ht hs hc) fun w hw => hs.toValid.honest_mono hr (hc w hw)

end

/-! ## Programs -/

theorem GlobalsLowered.marked {ds : List Declaration} {b b' : Builder} (h : GlobalsLowered ds b b')
    (hs : Site.Marked t first ⟨[], b⟩) : Site.Marked t first ⟨[], b'⟩ := by
  induction h with
  | nil b => exact hs
  | cons hd hdefault hrest ih => exact ih (hs.insert (.globalVar ..) rfl rfl nofun)

theorem ParamsLowered.marked {pin : Nat} {ps : List Parameter} {b b' : Builder}
    (h : ParamsLowered pin ps b b') (hp : pin = b.graph.inputs.length)
    (hs : Site.Marked t first ⟨[], b⟩) : Site.Marked t first ⟨[], b'⟩ := by
  induction h with
  | nil pin b => exact hs
  | cons hd hrest ih =>
    refine ih ?_ (hs.insert (.input _ _ _ hp) rfl rfl nofun)
    simp [Builder.addInput, hp]

/-- At the start there is nothing. -/
theorem Site.marked_start (hf : 1 ≤ first) : Site.Marked t first ⟨[], Builder.start first⟩ :=
  ⟨Site.valid_start t hf, fun name wire hb => by simp [Builder.start] at hb,
    fun n hn => by simp [Builder.start, Graph.empty] at hn⟩

/-- The nodes of a program's graph are placed by honest wires. -/
theorem ProgramLowered.placed {p : Program} {g : Graph} (h : ProgramLowered t p first g)
    (ht : t.Reserved) (hf : 1 ≤ first) :
    ∀ n ∈ g.nodes, n.Placed (g.ReadsPublic n) (g.ReadsPublicAt n 1) := by
  obtain ⟨hg, he⟩ := h
  rename_i b₁ b₂
  have hmarked : Site.Marked t first ⟨[], b₂⟩ := by
    have hs₁ := hg.marked (Site.marked_start (t := t) hf)
    generalize p.entry? = m at he
    cases he with
    | absent => exact hs₁
    | present hp hb =>
      have hs₂ := hp.marked (by rw [hg.graph_eq]; rfl) hs₁
      have hs₃ := hb.marked ht hs₂ (by simp)
      exact hs₃.quiet (.single (.expr (.note ..))) rfl rfl
  intro n hn
  obtain ⟨ws, hf, hw, hp⟩ := hmarked.nodes n hn
  have hmarks : ∀ w ∈ ws, (w.isPublic = true ↔ b₂.graph.IsPublic w.ref) := fun w hm => (hw w hm).2
  rw [Node.PlacedBy, ← Graph.readsPublic_iff hf hmarks, ← Graph.readsPublicAt_iff hf hmarks] at hp
  exact hp

/-- The literals of a program's graph show what the text makes them for. -/
theorem ProgramLowered.literals {p : Program} {g : Graph} (h : ProgramLowered t p first g) :
    List.Forall₂ (fun source l => l.shape = source.shape) p.sources g.literals := by
  have hshapes : List.Forall₂ Eq (p.sources.map LiteralSource.shape)
      (g.literals.map Literal.shape) := by
    rw [List.forall₂_eq_eq_eq]
    exact h.shapes_eq.symm
  rw [List.forall₂_map_left_iff, List.forall₂_map_right_iff] at hshapes
  exact hshapes.imp fun _ _ => Eq.symm

end

/-- A literal stands with the public values exactly if it is made for a public declaration. -/
theorem LiteralSource.place_iff_of_shape_eq {source : LiteralSource} {l : Literal}
    (h : l.shape = source.shape) :
    l.place = Place.publicValue ↔ source.isDeclaration = true := by
  have hplace : l.place = source.place := by
    rw [← source.shape_snd_fst, ← h]
    rfl
  rw [hplace]
  exact source.place_eq_publicValue_iff

/-- **Places.** In the graph of a program, with the standard table of builtins, the literals are made
for the numbers and the public declarations of the text, in this order, and they stand with the
public values exactly if they are made for a public declaration. Every node is placed by the public
values that it reads. -/
theorem lower_placed {p : Program} {first : Ref} {g : Graph} (hf : 1 ≤ first)
    (h : p.lower Builtins.standard first = .ok g) :
    List.Forall₂ (fun source l => l.shape = source.shape ∧
      (l.place = Place.publicValue ↔ source.isDeclaration = true)) p.sources g.literals ∧
    ∀ n ∈ g.nodes, n.Placed (g.ReadsPublic n) (g.ReadsPublicAt n 1) := by
  have hl := ProgramLowered.of_lower h
  refine ⟨hl.literals.imp fun source l hshape => ?_, hl.placed Builtins.standard_reserved hf⟩
  exact ⟨hshape, LiteralSource.place_iff_of_shape_eq hshape⟩

/-- A source with two public values that are read under another name, in branches, by a call and by a
write. -/
def publicReads : String :=
  "float f; def Main(bool c) \x7b public float a; public bool d; float v = a; if (c) \x7b " ++
    "if (d) \x7b v = v; v = 2; \x7d else \x7b f = Math.sin(a) * v; \x7d \x7d f = d; return(-v); \x7d"

/-- In the graph of `publicReads`, the consumers of public values are the first choice, the negation of
the inner test and the call. -/
theorem lower_placed_publicReads :
    ∃ p g, Program.parse publicReads = .ok p ∧ p.lower Builtins.standard 1 = .ok g ∧
      p.sources = [.declaration "a", .declaration "d", .number (.ofInt 2)] ∧
      (g.nodes.filter (·.place = Place.publicConsumer)).map (·.opcode) =
        [Opcode.select, Opcode.not, 52] ∧
      List.Forall₂ (fun source l => l.shape = source.shape ∧
        (l.place = Place.publicValue ↔ source.isDeclaration = true)) p.sources g.literals ∧
      ∀ n ∈ g.nodes, n.Placed (g.ReadsPublic n) (g.ReadsPublicAt n 1) := by
  have hrun : ((Program.parse publicReads).toOption.bind fun p =>
      (p.lower Builtins.standard 1).toOption.map fun g =>
        (p.sources, (g.nodes.filter (·.place = Place.publicConsumer)).map (·.opcode))) =
      some ([.declaration "a", .declaration "d", .number (.ofInt 2)],
        [Opcode.select, Opcode.not, 52]) := by
    decide +kernel
  rcases hp : Program.parse publicReads with e | p
  · simp [hp, Except.toOption] at hrun
  · rcases hg : p.lower Builtins.standard 1 with e | g
    · simp [hp, hg, Except.toOption] at hrun
    · simp only [hp, hg, Except.toOption, Option.bind_some, Option.map_some, Option.some.injEq,
        Prod.mk.injEq] at hrun
      exact ⟨p, g, rfl, hg, hrun.1, hrun.2, lower_placed (by decide) hg⟩

end ScriptGraph
