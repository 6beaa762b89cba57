import Mathlib.Data.Int.Range
import Mathlib.Data.List.Nodup
import ScriptGraph.Parsing.Program
import ScriptGraph.Proofs.Lowering.Steps

/-!
# Ids are given exactly once

Nodes, literals and variables take their ids from one counter, but not in the order in which they
enter the graph: a call takes its id before its arguments take theirs, and its node comes after them.
So at a point inside of an expression there are ids that no part of the graph has yet, and they are
those of the open calls. `Site.Allocated` counts them in: the ids of the graph and of the open calls
are, in some order, exactly the ids that were given.

A step keeps this, hence a run does, and when no call is open the graph has all ids.
-/

namespace ScriptGraph

open Relation

/-- The ids up to one more are those so far and the new one. -/
theorem range_add_one {first next : Int} (h : first ≤ next) :
    Int.range first (next + 1) = Int.range first next ++ [next] := by
  have hn : (next + 1 - first).toNat = (next - first).toNat + 1 := by omega
  have hl : first + ((next - first).toNat : Int) = next := by omega
  rw [Int.range, hn, List.range_succ, List.map_append, List.map_singleton, hl, Int.range]

theorem nodup_range (first next : Int) : (Int.range first next).Nodup := by
  refine List.Nodup.map (fun i j hij => ?_) List.nodup_range
  exact Int.ofNat_inj.mp (Int.add_left_cancel hij)

/-! ## The ids of a graph in the making -/

namespace Builder

theorem refs_addNode (b : Builder) (n : Node) :
    (b.addNode n).graph.refs.Perm (n.ref :: b.graph.refs) := by
  simp only [addNode, Graph.refs, List.map_append, List.map_cons, List.map_nil, List.append_assoc,
    List.singleton_append]
  exact List.perm_middle

theorem refs_emit (b : Builder) (opcode : Opcode) (place : Place) (linked : Ref)
    (inputs : List Wire) :
    (b.emit opcode place linked inputs).graph.refs.Perm (b.next :: b.graph.refs) :=
  b.refs_addNode ⟨opcode, b.next, place, linked⟩

theorem refs_addLiteral (b : Builder) (name : String) (place : Place) (value : Binary32) :
    (b.addLiteral name place value).graph.refs.Perm (b.next :: b.graph.refs) := by
  simp only [addLiteral, Graph.refs, List.map_append, List.map_cons, List.map_nil,
    List.append_assoc, List.singleton_append]
  rw [← List.append_assoc]
  exact List.perm_middle.trans (by rw [List.append_assoc])

theorem refs_declareGlobal (b : Builder) (name : String) (type : ValueType) (default : String) :
    (b.declareGlobal name type default).graph.refs.Perm (b.next :: b.graph.refs) := by
  simp only [declareGlobal, Graph.refs, List.map_append, List.map_cons, List.map_nil]
  rw [← List.append_assoc]
  exact List.perm_append_singleton _ _

theorem refs_ensureOutput (b : Builder) (index : Nat) :
    (b.ensureOutput index).graph.refs = b.graph.refs := by
  simp only [Graph.refs, ensureOutput_nodes, ensureOutput_literals, ensureOutput_globals]

end Builder

/-- The ids of the graph and of the open calls are exactly those given since `first`. -/
structure Site.Allocated (first : Ref) (s : Site) : Prop where
  /-- the counter has not gone back -/
  le : first ≤ s.builder.next
  /-- every id given is in use once -/
  perm : (s.builder.graph.refs ++ s.calls.map Prod.fst).Perm (Int.range first s.builder.next)

namespace Site.Allocated

variable {first : Ref} {calls : List (Ref × List Wire)} {b b' : Builder}

/-- Nothing new takes an id. -/
theorem same (h : Allocated first ⟨calls, b⟩) (hr : b'.graph.refs = b.graph.refs)
    (hn : b'.next = b.next) : Allocated first ⟨calls, b'⟩ :=
  ⟨hn ▸ h.le, by simpa only [hr, hn] using h.perm⟩

/-- A part of the graph takes the next id. -/
theorem take (h : Allocated first ⟨calls, b⟩) (hr : b'.graph.refs.Perm (b.next :: b.graph.refs))
    (hn : b'.next = b.next + 1) : Allocated first ⟨calls, b'⟩ := by
  refine ⟨by rw [hn]; exact Int.le_add_one h.le, ?_⟩
  rw [hn, range_add_one h.le]
  calc b'.graph.refs ++ calls.map Prod.fst
      |>.Perm (b.next :: (b.graph.refs ++ calls.map Prod.fst)) := hr.append_right _
    _ |>.Perm (b.next :: Int.range first b.next) := h.perm.cons _
    _ |>.Perm (Int.range first b.next ++ [b.next]) := (List.perm_append_singleton _ _).symm

/-- A call takes the next id. -/
theorem openCall (h : Allocated first ⟨calls, b⟩) :
    Allocated first ⟨(b.next, []) :: calls, b.reserve⟩ := by
  refine ⟨Int.le_add_one h.le, ?_⟩
  have hp : (b.graph.refs ++ b.next :: calls.map Prod.fst).Perm
      (b.next :: Int.range first b.next) :=
    List.perm_middle.trans (h.perm.cons _)
  rw [Builder.reserve, range_add_one h.le]
  exact hp.trans (List.perm_append_singleton _ _).symm

/-- The node of the innermost call has the id that the call took. -/
theorem closeCall {ref : Ref} {ws : List Wire} (h : Allocated first ⟨(ref, ws) :: calls, b⟩)
    {n : Node} (hn : n.ref = ref) : Allocated first ⟨calls, b.addNode n⟩ := by
  refine ⟨h.le, ?_⟩
  subst hn
  -- the id moves from the open calls to the nodes, and the counter stays
  calc (b.addNode n).graph.refs ++ calls.map Prod.fst
      |>.Perm (n.ref :: (b.graph.refs ++ calls.map Prod.fst)) := (b.refs_addNode n).append_right _
    _ |>.Perm (b.graph.refs ++ n.ref :: calls.map Prod.fst) := List.perm_middle.symm
    _ |>.Perm (Int.range first b.next) := h.perm

/-- No id is in use twice. -/
theorem refs_nodup (h : Allocated first ⟨calls, b⟩) : b.graph.refs.Nodup :=
  (List.nodup_append.mp (h.perm.nodup_iff.mpr (nodup_range _ _))).1

end Site.Allocated

/-! ## Steps and runs -/

theorem ExprStep.allocated {t : Builtins} {first : Ref} {s s' : Site} (h : ExprStep t s s')
    (hs : s.Allocated first) : s'.Allocated first := by
  cases h with
  | note calls b event => exact hs.same rfl rfl
  | number calls b value => exact hs.take (b.refs_addLiteral _ _ _) rfl
  | node he hw => exact hs.take (Builder.refs_emit _ _ _ _ _) rfl
  | read hv => exact hs.take (Builder.refs_emit _ _ _ _ _) rfl
  | openCall calls b => exact hs.openCall
  | argument hw => exact ⟨hs.le, hs.perm⟩
  | closeCall ho => exact hs.closeCall rfl

theorem Step.allocated {t : Builtins} {first : Ref} {s s' : Site} (h : Step t s s')
    (hs : s.Allocated first) : s'.Allocated first := by
  cases h with
  | expr h => exact h.allocated hs
  | publicValue b name => exact hs.take (b.refs_addLiteral _ _ _) rfl
  | bind hw => exact hs.same rfl rfl
  | @write b ref last w hv hw => exact hs.take (b.refs_emit _ _ ref [w]) rfl
  | output hw hi => exact hs.same (Builder.refs_ensureOutput _ _) rfl
  | exit b last => exact hs.same rfl rfl
  | globalVar b name type default => exact hs.take (b.refs_declareGlobal _ _ _) rfl
  | input name type pin hp => exact hs.same rfl rfl

theorem Steps.allocated {t : Builtins} {first : Ref} {s s' : Site} (h : Steps t s s')
    (hs : s.Allocated first) : s'.Allocated first := by
  induction h with
  | refl => exact hs
  | tail _ h ih => exact h.allocated ih

theorem Site.allocated_start (first : Ref) : Site.Allocated first ⟨[], Builder.start first⟩ :=
  ⟨Int.le_refl _, by simp [Builder.start, Graph.empty, Graph.refs, Int.range]⟩

/-- The ids of the graph of a program are those from the first one up to its counter. -/
theorem ProgramLowered.refs_perm {t : Builtins} {p : Program} {first : Ref} {g : Graph}
    (h : ProgramLowered t p first g) (hf : 1 ≤ first) :
    first ≤ g.counter ∧ g.refs.Perm (Int.range first g.counter) := by
  obtain ⟨b, hb, rfl⟩ := h.steps hf
  have ha := hb.allocated (Site.allocated_start first)
  exact ⟨ha.le, List.append_nil b.graph.refs ▸ ha.perm⟩

/-- No id is given twice. -/
theorem ProgramLowered.refs_nodup {t : Builtins} {p : Program} {first : Ref} {g : Graph}
    (h : ProgramLowered t p first g) (hf : 1 ≤ first) : g.refs.Nodup := by
  obtain ⟨b, hb, rfl⟩ := h.steps hf
  exact (hb.allocated (Site.allocated_start first)).refs_nodup

/-- An id of the graph was given by the counter. -/
theorem ProgramLowered.mem_refs {t : Builtins} {p : Program} {first r : Ref} {g : Graph}
    (h : ProgramLowered t p first g) (hf : 1 ≤ first) : r ∈ g.refs ↔ first ≤ r ∧ r < g.counter :=
  (h.refs_perm hf).2.mem_iff.trans Int.mem_range_iff

/-- **Identifier allocation is exact.** The ids of the nodes, literals and variables of a program's
graph are, in some order, the integers from the first one up to the counter: none is given twice,
none is left out, and none is zero or the endpoint. A second program that starts at the counter has
no id in common with the first. -/
theorem lower_allocates_exactly {t : Builtins} {p : Program} {first : Ref} {g : Graph}
    (hf : 1 ≤ first) (h : p.lower t first = .ok g) :
    g.refs.Perm (Int.range first g.counter) ∧ first ≤ g.counter ∧ g.refs.Nodup ∧
      (∀ r ∈ g.refs, r ≠ 0 ∧ r ≠ Ref.endpoint) ∧
      ∀ (t' : Builtins) (p' : Program) (g' : Graph), p'.lower t' g.counter = .ok g' →
        ∀ r ∈ g.refs, r ∉ g'.refs := by
  have hg := ProgramLowered.of_lower h
  obtain ⟨hle, hp⟩ := hg.refs_perm hf
  refine ⟨hp, hle, hg.refs_nodup hf, fun r hr => ?_, fun t' p' g' h' r hr hr' => ?_⟩
  · have hr : 0 < r := Int.lt_of_lt_of_le hf ((hg.mem_refs hf).mp hr).1
    exact ⟨Int.ne_of_gt hr, Int.ne_of_gt (Int.lt_trans (by decide) hr)⟩
  · have hc : 1 ≤ g.counter := Int.le_trans hf hle
    have h₁ := ((hg.mem_refs hf).mp hr).2
    have h₂ := (((ProgramLowered.of_lower h').mem_refs hc).mp hr').1
    exact Int.not_le.mpr h₁ h₂

/-- A source whose program has a graph, if running both stages says so. -/
theorem exists_lowered (source : String) (t : Builtins) (first : Ref)
    (h : ((Program.parse source).toOption.bind fun p => (p.lower t first).toOption).isSome = true) :
    ∃ p g, Program.parse source = .ok p ∧ p.lower t first = .ok g := by
  rcases hp : Program.parse source with e | p
  · simp [hp, Except.toOption] at h
  · rcases hg : p.lower t first with e | g
    · simp [hp, hg, Except.toOption] at h
    · exact ⟨p, g, rfl, hg⟩

/-- A source with a call inside of a call, under a condition. -/
def nestedCalls : String :=
  "float x; def Main(bool c) \x7b if (c) \x7b x = Math.sin(Math.abs(1)); \x7d \x7d"

/-- The calls of `nestedCalls` take their ids before the nodes that have them are made, and still no
id is lost. -/
theorem lower_allocates_exactly_nestedCalls :
    ∃ p g, Program.parse nestedCalls = .ok p ∧ p.lower Builtins.standard 2 = .ok g ∧
      g.refs.Perm (Int.range 2 g.counter) ∧ g.refs.Nodup := by
  obtain ⟨p, g, hp, hg⟩ := exists_lowered nestedCalls Builtins.standard 2 (by decide +kernel)
  obtain ⟨hperm, -, hd, -⟩ := lower_allocates_exactly (by decide) hg
  exact ⟨p, g, hp, hg, hperm, hd⟩

end ScriptGraph
