import ScriptGraph.Graph.Repair
import ScriptGraph.Proofs.Lowering.Integrity
import ScriptGraph.Proofs.Lowering.Renaming

/-!
# The first id and the values of numbers

Lowered from another first id on, a program has the same graph with all ids moved, and numbers have no
part in that. The endpoint stays where it is, and no id may be moved onto it, because repair compares
ids.

* `Ref.shift`, `Renaming.shift` — moving ids;
* `Graph.withValues` — replacing the values of literals;
* `Graph.repair_rename`, `Graph.report_rename` — repair commutes with a renaming;
* `lower_renumbered` — two runs compared.
-/

namespace ScriptGraph

open Lowering

/-! ## Moving ids -/

/-- An id in a numbering that starts `d` later. The endpoint, which also marks nodes that belong to no
variable, is not numbered. -/
def Ref.shift (d : Int) (ref : Ref) : Ref :=
  if ref = Ref.endpoint then Ref.endpoint else ref + d

namespace Ref

variable {d : Int}

theorem shift_endpoint : Ref.endpoint.shift d = Ref.endpoint :=
  rfl

theorem shift_of_pos {ref : Ref} (h : 0 < ref) : ref.shift d = ref + d := by
  rw [shift, if_neg]
  rintro rfl
  exact absurd h (by decide)

theorem shift_zero : Ref.shift 0 = id := by
  funext ref
  rw [shift, Int.add_zero, id]
  split
  · next h => exact h.symm
  · rfl

end Ref

/-- A counter above zero may be moved. -/
def Renaming.shift (d : Int) : Renaming where
  ref := Ref.shift d
  covers r := 0 < r
  between hlow _ hle _ := Int.lt_of_lt_of_le hlow hle
  endpoint := Ref.shift_endpoint
  next {r} h h' := by
    rw [Ref.shift_of_pos h, Ref.shift_of_pos h']
    exact Int.add_right_comm r 1 d

/-- A graph whose literals hold other values. -/
def Graph.withValues (g : Graph) (values : List Binary32) : Graph :=
  { g with literals := List.zipWith Literal.withValue g.literals values }

def Report.rename (f : Ref → Ref) (r : Report) : Report :=
  ⟨r.chained.map f, r.orphans.map f⟩

/-- Lowering commutes with a change of the first id and of the numbers. -/
theorem Program.lower_shift (p : Program) (t : Builtins) {first : Ref} (h : 1 ≤ first) (d : Int) :
    p.blank.lower t (first + d) =
      (p.lower t first).map fun g => (g.rename (Ref.shift d)).blank := by
  have hnext : 0 < p.nextRef t first := Int.lt_of_lt_of_le h (p.first_le_nextRef t first)
  rw [← Ref.shift_of_pos (d := d) h]
  exact p.lower_blank t (.shift d) h hnext

/-! ## Repair -/

/-- Literals that differ in their values only. -/
theorem Literal.eq_withValue {l l' : Literal} {value : Binary32}
    (h : l'.withValue value = l.withValue value) : l' = l.withValue l'.value := by
  cases l
  cases l'
  simp only [withValue, mk.injEq, and_true] at h
  obtain ⟨rfl, rfl, rfl⟩ := h
  rfl

namespace Graph

theorem rename_id (g : Graph) : g.rename id = g := by
  have hv : Variable.rename id = id := rfl
  have hn : Node.rename id = id := rfl
  have hl : Literal.rename id = id := rfl
  have hc : Connection.rename id = id := rfl
  simp only [rename, hv, hn, hl, hc, List.map_id, id]

theorem literals_eq_zipWith {ls ls' : List Literal} {value : Binary32}
    (h : ls'.map (·.withValue value) = ls.map (·.withValue value)) :
    ls' = List.zipWith Literal.withValue ls (ls'.map (·.value)) := by
  induction ls generalizing ls' with
  | nil =>
    rw [List.map_nil, List.map_eq_nil_iff] at h
    rw [h]
    rfl
  | cons l ls ih =>
    obtain ⟨l', ls', rfl, hl, hls⟩ := List.map_eq_cons_iff.mp h
    rw [List.map_cons, List.zipWith_cons_cons, ← ih hls, ← Literal.eq_withValue hl]

/-- Graphs that differ in the values of their literals only. -/
theorem eq_withValues {g g' : Graph} (h : g'.blank = g.blank) : g' = g.withValues g'.values := by
  cases g
  cases g'
  simp only [blank, mk.injEq] at h
  obtain ⟨rfl, rfl, rfl, rfl, hl, rfl, rfl⟩ := h
  simp only [withValues, values, ← literals_eq_zipWith hl]

theorem repair_blank (g : Graph) : g.blank.repair = g.repair.blank :=
  rfl

theorem report_blank (g : Graph) : g.blank.report = g.report :=
  rfl

section

variable {f : Ref → Ref} {g : Graph}

/-- Renaming keeps a node unread if it does not confuse it with the source of a connection. -/
theorem isUnread_rename {n : Node}
    (hf : ∀ c ∈ g.connections, f c.source = f n.ref → c.source = n.ref) :
    (g.rename f).isUnread (n.rename f) = g.isUnread n := by
  simp only [isUnread, rename, List.any_map]
  congr 1
  rw [Bool.eq_iff_iff, List.any_eq_true, List.any_eq_true]
  refine exists_congr fun c => and_congr_right fun hc => ?_
  simp only [Function.comp, Connection.rename, Node.rename, beq_iff_eq]
  exact ⟨hf c hc, congrArg f⟩

variable (hf : ∀ n ∈ g.nodes, ∀ c ∈ g.connections, f c.source = f n.ref → c.source = n.ref)

include hf

theorem report_rename : (g.rename f).report = g.report.rename f := by
  have hfilter : ∀ p : Node → Bool → Bool,
      ((g.rename f).nodes.filter fun n => p n ((g.rename f).isUnread n)).map (·.ref) =
        ((g.nodes.filter fun n => p (n.rename f) (g.isUnread n)).map (·.ref)).map f := by
    intro p
    rw [show (g.rename f).nodes = g.nodes.map (Node.rename f) from rfl, List.filter_map,
      List.map_map, List.map_map]
    rw [List.filter_congr fun n hn => ?_]
    · rfl
    · rw [Function.comp, isUnread_rename (hf n hn)]
  exact congrArg₂ Report.mk (hfilter fun n unread => n.isWrite && unread)
    (hfilter fun n unread => !n.isWrite && unread)

theorem repair_rename (he : f Ref.endpoint = Ref.endpoint) :
    (g.rename f).repair = g.repair.rename f := by
  have hnodes : (g.rename f).repair.nodes = (g.repair.rename f).nodes := by
    simp only [repair, rename, List.map_map]
    refine List.map_congr_left fun n hn => ?_
    have hu : (g.rename f).isUnread (n.rename f) = g.isUnread n := isUnread_rename (hf n hn)
    have hw : (n.rename f).isWrite = n.isWrite := rfl
    rw [rename] at hu
    simp only [Function.comp, hu, hw]
    split <;> rfl
  have hconnections : (g.rename f).repair.connections = (g.repair.rename f).connections := by
    have hr : (g.rename f).report.chained = g.report.chained.map f := by
      rw [report_rename hf]
      rfl
    rw [repair, hr]
    simp only [repair, rename, List.map_append, List.map_map]
    congr 2
    funext ref
    simp only [Function.comp, Connection.rename, Connection.execution, he]
  exact congrArg₂ (fun nodes connections =>
    { g.rename f with nodes := nodes, connections := connections }) hnodes hconnections

end

end Graph

/-! ## Two runs -/

/-- In a graph with ids from `first` on, moving these to ids above zero confuses no node with the
source of a connection. -/
theorem ProgramLowered.shift_inj {t : Builtins} {p : Program} {first : Ref} {g : Graph} {d : Int}
    (h : ProgramLowered t p first g) (hf : 1 ≤ first) (hd : 1 ≤ first + d) :
    ∀ n ∈ g.nodes, ∀ c ∈ g.connections, c.source.shift d = n.ref.shift d → c.source = n.ref := by
  intro n hn c _ hc
  have hle := ((h.mem_refs hf).mp (Graph.node_ref_mem hn)).1
  rw [Ref.shift_of_pos (Int.lt_of_lt_of_le hf hle), Ref.shift] at hc
  split at hc
  · -- a node is never moved onto the endpoint
    have hpos : 1 ≤ n.ref + d := Int.le_trans hd (Int.add_le_add_right hle d)
    rw [← hc] at hpos
    exact absurd hpos (by decide)
  · exact (Int.add_left_inj d).mp hc

/-- Two programs that differ in their numbers only have the same graph up to ids and values. -/
theorem Program.lower_blank_eq {p q : Program} (h : p.blank = q.blank) (t : Builtins) {j k : Ref}
    (hj : 1 ≤ j) (hk : 1 ≤ k) :
    (q.lower t k).map Graph.blank =
      (p.lower t j).map fun g => (g.rename (Ref.shift (k - j))).blank := by
  have hp := p.lower_shift t hj (k - j)
  have hq := q.lower_shift t hk 0
  rw [add_sub_cancel, h] at hp
  rw [Int.add_zero, Ref.shift_zero, hp] at hq
  simp only [Graph.rename_id] at hq
  exact hq.symm

/-- Repair tells such graphs apart no more than lowering does. -/
theorem ProgramLowered.repair_blank_eq {t : Builtins} {p : Program} {j k : Ref} {g g' : Graph}
    (hg : ProgramLowered t p j g) (hj : 1 ≤ j) (hk : 1 ≤ k)
    (h : g'.blank = (g.rename (Ref.shift (k - j))).blank) :
    g'.repair.blank = (g.repair.rename (Ref.shift (k - j))).blank ∧
      g'.report = g.report.rename (Ref.shift (k - j)) := by
  have hinj := hg.shift_inj hj (d := k - j) (by rw [add_sub_cancel]; exact hk)
  constructor
  · rw [← Graph.repair_rename hinj Ref.shift_endpoint, ← Graph.repair_blank, h, Graph.repair_blank]
  · rw [← Graph.report_rename hinj, ← Graph.report_blank, h, Graph.report_blank]

/-- **Lowering is parametric in the first id and in the values of numbers.** Two programs that differ
in their numbers only, lowered from two first ids on and repaired, are refused for the same reason, or
have graphs and reports of which one arises from the other: ids and counter move by the difference of
the first ids, the endpoint and the mark of unlinked nodes stay, and the literals hold the numbers of
the second program where they held those of the first. -/
theorem lower_renumbered (t : Builtins) {p q : Program} {j k : Ref} (h : p.blank = q.blank)
    (hj : 1 ≤ j) (hk : 1 ≤ k) :
    (∃ e, p.lower t j = .error e ∧ q.lower t k = .error e) ∨
      ∃ g g', p.lower t j = .ok g ∧ q.lower t k = .ok g' ∧
        g'.repair = (g.repair.rename (Ref.shift (k - j))).withValues q.values ∧
        g.repair.values = p.values ∧ p.values.length = q.values.length ∧
        g'.report = g.report.rename (Ref.shift (k - j)) ∧
        g'.repair.counter = g.repair.counter + (k - j) := by
  have heq := Program.lower_blank_eq h t hj hk
  rcases hp : p.lower t j with e | g <;> rcases hq : q.lower t k with e' | g' <;>
    simp only [hp, hq, Except.map, reduceCtorEq, Except.error.injEq, Except.ok.injEq] at heq
  · exact .inl ⟨e, rfl, by rw [heq]⟩
  · have hg := ProgramLowered.of_lower hp
    have hg' := ProgramLowered.of_lower hq
    obtain ⟨hrepair, hreport⟩ := hg.repair_blank_eq hj hk heq
    have hcounter : g'.counter = g.counter + (k - j) := by
      rw [← Ref.shift_of_pos (Int.lt_of_lt_of_le hj (hg.refs_perm hj).1)]
      exact congrArg Graph.counter heq
    have hlength : p.values.length = q.values.length := by
      have hliterals := congrArg (fun g => g.literals.length) heq
      simp only [Graph.blank, Graph.rename, List.length_map] at hliterals
      rw [← hg.values_eq, ← hg'.values_eq, Graph.values, Graph.values, List.length_map,
        List.length_map, hliterals]
    refine .inr ⟨g, g', rfl, rfl, ?_, hg.values_eq, hlength, hreport, hcounter⟩
    rw [← hg'.values_eq]
    exact Graph.eq_withValues hrepair

/-- A program with a global variable that is scaled under a condition. -/
def scaling (factor : Binary32) : Program :=
  ⟨[.globalVar ⟨"float", ⟨"x", default⟩, none, false⟩,
    .method ⟨⟨"Main", default⟩, [⟨"bool", ⟨"c", default⟩⟩],
      [.branch (.var ⟨"c", default⟩)
        [.assign ⟨"x", default⟩ .mul (.number factor) default] none default]⟩]⟩

/-- Two such programs, whose ids start at one and at a hundred. -/
theorem lower_renumbered_scaling :
    ∃ g g', (scaling (.ofInt 2)).lower Builtins.standard 1 = .ok g ∧
      (scaling (.ofInt 3)).lower Builtins.standard 100 = .ok g' ∧
      g'.repair = (g.repair.rename (Ref.shift 99)).withValues [.ofInt 3] ∧
      g'.repair.counter = g.repair.counter + 99 := by
  have hok : ((scaling (.ofInt 2)).lower Builtins.standard 1).toOption.isSome = true := by
    decide +kernel
  rcases lower_renumbered Builtins.standard (p := scaling (.ofInt 2)) (q := scaling (.ofInt 3))
    (j := 1) (k := 100) rfl (by decide) (by decide) with ⟨e, he, -⟩ | h
  · rw [he] at hok
    cases hok
  · obtain ⟨g, g', hg, hg', hr, -, -, -, hc⟩ := h
    exact ⟨g, g', hg, hg', hr, hc⟩

end ScriptGraph
