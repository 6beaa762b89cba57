import Mathlib.Data.List.Forall2
import Mathlib.Logic.Function.Basic
import ScriptGraph.Proofs.Lowering.Visibility
import ScriptGraph.Proofs.Meaning.Interpreter

/-!
# What a graph means

A graph is evaluated by visiting its nodes in their order. A node takes its inputs along the data
connections and yields its outputs; a node that reads a variable yields what the store holds then,
and one that writes a variable changes the store.

* `Graph.value?` — the value at an output: an argument, what a node has yielded, or a literal;
* `Graph.visit`, `Graph.run` — a node, and all nodes one after another;
* `Graph.run_grow` — a graph that grows at its end goes on from where it was.
-/

namespace ScriptGraph

/-- The state of an evaluation. -/
structure Memory (V : Type) where
  /-- what the nodes have yielded, output by output -/
  outputs : Ref → Option (Nat → V)
  /-- the values of the variables -/
  store : Ref → V

namespace Memory

variable {V : Type}

/-- A node yields its outputs. -/
def yield (m : Memory V) (ref : Ref) (outputs : Nat → V) : Memory V :=
  { m with outputs := Function.update m.outputs ref (some outputs) }

/-- A variable takes a value. -/
def write (m : Memory V) (ref : Ref) (v : V) : Memory V :=
  { m with store := Function.update m.store ref v }

end Memory

namespace Graph

variable {V : Type} (rt : Runtime V) (args : Nat → V)

/-- The value at an output. -/
def value? (g : Graph) (m : Memory V) (ref : Ref) (pin : Nat) : Option V :=
  if ref = Ref.endpoint then some (args pin)
  else
    match m.outputs ref with
    | some outputs => some (outputs pin)
    | none => (g.literals.find? fun l => l.ref == ref).map fun l => rt.number l.value

/-- The values that the data connections carry to a node, or to the outputs of the method. -/
def inputValues? (g : Graph) (m : Memory V) (ref : Ref) : Option (List V) :=
  (g.dataInputs ref).mapM fun c => g.value? rt args m c.source c.sourcePin

/-- What a node does with its inputs. An opcode of an access to a variable means one only in a node
that is linked to a variable. -/
def perform (m : Memory V) (n : Node) (inputs : List V) : Option (Memory V) :=
  if n.opcode = Opcode.readGlobal ∧ n.linked ≠ Ref.unlinked then
    some (m.yield n.ref fun _ => m.store n.linked)
  else if n.opcode = Opcode.writeGlobal ∧ n.linked ≠ Ref.unlinked then
    inputs.head?.map fun v => m.write n.linked v
  else
    some (m.yield n.ref (rt.operation n.opcode inputs))

/-- Visits a node. -/
def visit (g : Graph) (m : Memory V) (n : Node) : Option (Memory V) := do
  perform rt m n (← g.inputValues? rt args m n.ref)

/-- Visits all nodes in their order, from a store on. -/
def run (g : Graph) (store : Ref → V) : Option (Memory V) :=
  g.nodes.foldlM (g.visit rt args) ⟨fun _ => none, store⟩

/-- The results of the method. -/
def results? (g : Graph) (m : Memory V) : Option (List V) :=
  g.inputValues? rt args m Ref.endpoint

/-- The variables of a graph by name, with their values in a store. -/
def globalsIn (g : Graph) (store : Ref → V) : Dictionary V :=
  .ofList (g.globals.map fun v => (v.name, store v.ref))

end Graph

/-! ## Variables by name -/

/-- Of several entries for a name the last one counts. -/
theorem Dictionary.get?_insertAll {α : Type} (entries : List (String × α)) (d : Dictionary α)
    (name : String) :
    (d.insertAll entries).get? name =
      ((entries.reverse.find? fun e => e.1 == name).map Prod.snd).or (d.get? name) := by
  induction entries generalizing d with
  | nil => rfl
  | cons e entries ih =>
    have h : (d.insertAll (e :: entries)).get? name =
        ((d.insert e.1 e.2).insertAll entries).get? name := rfl
    rw [h, ih, List.reverse_cons, List.find?_append, Option.map_or, Option.or_assoc]
    refine congrArg _ ?_
    by_cases hn : e.1 = name
    · rw [← hn, Dictionary.get?_insert_self, List.find?_cons_of_pos (by simp)]
      rfl
    · rw [Dictionary.get?_insert_of_ne (Ne.symm hn), List.find?_cons_of_neg (by simpa using hn)]
      rfl

/-- A name has the value of the variable that it means. -/
theorem Graph.get?_globalsIn {V : Type} (g : Graph) (store : Ref → V) (name : String) :
    (g.globalsIn store).get? name = (g.latestRef? name).map store := by
  rw [globalsIn, Dictionary.ofList, Dictionary.get?_insertAll, Dictionary.get?_empty, Option.or_none,
    latestRef?, ← List.map_reverse, List.find?_map, Option.map_map, Option.map_map]
  rfl

/-! ## Values -/

namespace Graph

variable {V : Type} {rt : Runtime V} {args : Nat → V} {g g' : Graph} {m m' : Memory V}

/-- Of a graph, the value at an output depends on the literals only. -/
theorem value?_congr (hl : g'.literals = g.literals) (ho : m'.outputs = m.outputs) (ref : Ref)
    (pin : Nat) : g'.value? rt args m' ref pin = g.value? rt args m ref pin := by
  rw [value?, hl, ho, value?]

theorem value?_yield_self {ref : Ref} (h : ref ≠ Ref.endpoint) (outputs : Nat → V) (pin : Nat) :
    g.value? rt args (m.yield ref outputs) ref pin = some (outputs pin) := by
  rw [value?, if_neg h, Memory.yield]
  simp only [Function.update_self]

theorem value?_yield_of_ne {ref ref' : Ref} (h : ref' ≠ ref) (outputs : Nat → V) (pin : Nat) :
    g.value? rt args (m.yield ref outputs) ref' pin = g.value? rt args m ref' pin := by
  rw [value?, value?, Memory.yield]
  simp only [Function.update_of_ne h]

/-- A node that belongs to no variable performs its operation. -/
theorem perform_unlinked (opcode : Opcode) (ref : Ref) (place : Place) (inputs : List V) :
    perform rt m ⟨opcode, ref, place, Ref.unlinked⟩ inputs =
      some (m.yield ref (rt.operation opcode inputs)) := by
  simp [perform]

/-- A node that reads a variable yields its value. -/
theorem perform_read {linked : Ref} (h : 0 < linked) (ref : Ref) (place : Place)
    (inputs : List V) :
    perform rt m ⟨Opcode.readGlobal, ref, place, linked⟩ inputs =
      some (m.yield ref fun _ => m.store linked) := by
  have hne : linked ≠ Ref.unlinked := Int.ne_of_gt (Int.lt_trans (by decide) h)
  rw [perform, if_pos ⟨rfl, hne⟩]

/-- A node that writes a variable takes its value over. -/
theorem perform_write {linked : Ref} (h : 0 < linked) (ref : Ref) (place : Place) (v : V) :
    perform rt m ⟨Opcode.writeGlobal, ref, place, linked⟩ [v] = some (m.write linked v) := by
  have hne : linked ≠ Ref.unlinked := Int.ne_of_gt (Int.lt_trans (by decide) h)
  have hread : ¬(Opcode.writeGlobal = Opcode.readGlobal ∧ linked ≠ Ref.unlinked) :=
    fun hr => absurd hr.1 (by decide)
  rw [perform, if_neg hread, if_pos ⟨rfl, hne⟩]
  rfl

end Graph

/-! ## Values of several wires -/

/-- A list of results is there exactly if each of them is. -/
theorem mapM_eq_some_iff {α β : Type} {f : α → Option β} {l : List α} {vs : List β} :
    l.mapM f = some vs ↔ List.Forall₂ (fun a v => f a = some v) l vs := by
  induction l generalizing vs with
  | nil =>
    rw [List.mapM_nil, List.forall₂_nil_left_iff]
    exact ⟨fun h => (Option.some.inj h).symm, fun h => h ▸ rfl⟩
  | cons a l ih =>
    rw [List.mapM_cons, List.forall₂_cons_left_iff]
    constructor
    · intro h
      obtain ⟨v, hv, h⟩ := Option.bind_eq_some_iff.mp h
      obtain ⟨ws, hws, h⟩ := Option.bind_eq_some_iff.mp h
      exact ⟨v, ws, hv, ih.mp hws, (Option.some.inj h).symm⟩
    · rintro ⟨v, ws, hv, hws, rfl⟩
      rw [hv, ih.mpr hws]
      rfl

/-- The data connections into a node, in the order in which they were made. -/
def Graph.feedsOf (g : Graph) (ref : Ref) : List Connection :=
  g.connections.filter fun c => !c.isExecution && c.target == ref

theorem Graph.dataInputs_eq (g : Graph) (ref : Ref) :
    g.dataInputs ref = (g.feedsOf ref).mergeSort fun a b => a.targetPin ≤ b.targetPin :=
  rfl

theorem feeds_append (target : Ref) (pin : Nat) (ws ws' : List Wire) :
    feeds target pin (ws ++ ws') = feeds target pin ws ++ feeds target (pin + ws.length) ws' := by
  induction ws generalizing pin with
  | nil => rfl
  | cons w ws ih =>
    rw [List.cons_append, feeds, ih, feeds, List.cons_append, List.length_cons, Nat.add_assoc,
      Nat.add_comm 1]

/-- Connections to inputs one after another are in the order of the inputs. -/
theorem feeds_pairwise (target : Ref) (pin : Nat) (ws : List Wire) :
    (feeds target pin ws).Pairwise (fun a b => decide (a.targetPin ≤ b.targetPin) = true) ∧
      ∀ c ∈ feeds target pin ws, pin ≤ c.targetPin := by
  induction ws generalizing pin with
  | nil => exact ⟨.nil, by simp [feeds]⟩
  | cons w ws ih =>
    obtain ⟨hp, hle⟩ := ih (pin + 1)
    refine ⟨.cons (fun c hc => ?_) hp, fun c hc => ?_⟩
    · rw [decide_eq_true_iff]
      exact Nat.le_of_succ_le (hle c hc)
    · rcases List.mem_cons.mp hc with rfl | hc
      · exact Nat.le_refl _
      · exact Nat.le_of_succ_le (hle c hc)

namespace Graph

variable {V : Type} {rt : Runtime V} {args : Nat → V} {g g' : Graph} {m m' : Memory V}

/-- A node that was fed wires one after another has their values as its inputs. -/
theorem inputValues?_of_feeds {ref : Ref} {ws : List Wire} {vs : List V}
    (hf : g.feedsOf ref = feeds ref 0 ws)
    (hv : List.Forall₂ (fun w v => g.value? rt args m w.ref w.pin = some v) ws vs) :
    g.inputValues? rt args m ref = some vs := by
  rw [inputValues?, dataInputs_eq, hf, List.mergeSort_of_pairwise (feeds_pairwise ref 0 ws).1,
    mapM_eq_some_iff]
  clear hf
  generalize 0 = pin
  induction hv generalizing pin with
  | nil => exact .nil
  | cons h _ ih => exact .cons h (ih (pin + 1))

/-! ## Connections that are added -/

/-- Connections to one target are connections into it and into nothing else. -/
theorem feedsOf_feeds {target ref : Ref} {pin : Nat} {ws : List Wire}
    (h : g'.connections = g.connections ++ feeds target pin ws) :
    g'.feedsOf ref = g.feedsOf ref ++ if ref = target then feeds target pin ws else [] := by
  rw [feedsOf, h, List.filter_append, ← feedsOf]
  refine congrArg _ ?_
  split
  · next he =>
    rw [List.filter_eq_self]
    intro c hc
    obtain ⟨hx, ht, -⟩ := mem_feeds hc
    simp [hx, ht, he]
  · next he =>
    rw [List.filter_eq_nil_iff]
    intro c hc
    obtain ⟨hx, ht, -⟩ := mem_feeds hc
    simpa [hx, ht] using Ne.symm he

/-- The chain of execution carries no data. -/
theorem feedsOf_execution {source target : Ref}
    (h : g'.connections = g.connections ++ [.execution source target]) (ref : Ref) :
    g'.feedsOf ref = g.feedsOf ref := by
  simp [feedsOf, h, Connection.execution]

/-! ## Growing graphs -/

/-- A value that is there stays there while literals are added. -/
theorem value?_mono (hl : g.literals <+: g'.literals) {ref : Ref} {pin : Nat} {v : V}
    (h : g.value? rt args m ref pin = some v) : g'.value? rt args m ref pin = some v := by
  rw [value?] at h ⊢
  by_cases he : ref = Ref.endpoint
  · rw [if_pos he] at h ⊢
    exact h
  · rw [if_neg he] at h ⊢
    rcases ho : m.outputs ref with _ | outputs
    · rw [ho] at h
      obtain ⟨more, hmore⟩ := hl
      obtain ⟨l, hfound, hv⟩ := Option.map_eq_some_iff.mp h
      rw [← hmore]
      simp only [List.find?_append, hfound, Option.some_or, Option.map_some, hv]
    · rw [ho] at h
      exact h

/-- A visit succeeds again if the node has the same connections and literals are only added. -/
theorem visit_mono (hl : g.literals <+: g'.literals) {n : Node}
    (hf : g'.feedsOf n.ref = g.feedsOf n.ref) (h : g.visit rt args m n = some m') :
    g'.visit rt args m n = some m' := by
  obtain ⟨vs, hvs, h⟩ := Option.bind_eq_some_iff.mp h
  refine Option.bind_eq_some_iff.mpr ⟨vs, ?_, h⟩
  rw [inputValues?, mapM_eq_some_iff] at hvs ⊢
  rw [dataInputs_eq, hf]
  exact hvs.imp fun c v => value?_mono hl

/-- **A graph that grows at its end.** If the connections into the old nodes stay and literals are
only added, an evaluation goes on with the new nodes from where it was. -/
theorem run_grow {store : Ref → V} {ns : List Node} (hn : g'.nodes = g.nodes ++ ns)
    (hl : g.literals <+: g'.literals)
    (hf : ∀ n ∈ g.nodes, g'.feedsOf n.ref = g.feedsOf n.ref)
    (h : g.run rt args store = some m) :
    g'.run rt args store = ns.foldlM (g'.visit rt args) m := by
  have hold : ∀ (old : List Node) (m₀ : Memory V), old ⊆ g.nodes →
      old.foldlM (g.visit rt args) m₀ = some m → old.foldlM (g'.visit rt args) m₀ = some m := by
    intro old
    induction old with
    | nil => exact fun m₀ _ h => h
    | cons n old ih =>
      intro m₀ hsub h
      obtain ⟨m₁, h₁, h⟩ := Option.bind_eq_some_iff.mp h
      have hn := hsub (List.mem_cons_self ..)
      refine Option.bind_eq_some_iff.mpr ⟨m₁, visit_mono hl (hf n hn) h₁, ?_⟩
      exact ih m₁ (fun k hk => hsub (List.mem_cons_of_mem _ hk)) h
  rw [run, hn, List.foldlM_append, hold _ _ (List.Subset.refl _) h]
  rfl

/-- Without a new node, the evaluation ends where it ended. -/
theorem run_keep {store : Ref → V} (hn : g'.nodes = g.nodes) (hl : g.literals <+: g'.literals)
    (hf : ∀ n ∈ g.nodes, g'.feedsOf n.ref = g.feedsOf n.ref)
    (h : g.run rt args store = some m) : g'.run rt args store = some m :=
  run_grow (hn.trans (List.append_nil _).symm) hl hf h

end Graph

end ScriptGraph
