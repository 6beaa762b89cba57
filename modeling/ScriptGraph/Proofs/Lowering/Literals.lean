import ScriptGraph.Proofs.Lowering.Inputs
import ScriptGraph.Proofs.Tree.Numbers

/-!
# The literals of a graph

The literals of a graph are made for the numbers of the text that are lowered and for the public
declarations, in the order of the text. Nothing else makes a literal, and no literal is changed.

* `Literal.shape`, `LiteralSource.shape` — what a literal shows, its id apart;
* `ExprLowered.shapes_eq`, `StmtLowered.shapes_eq` — lowering adds the literals of the text;
* `ProgramLowered.shapes_eq`, `ProgramLowered.values_eq` — so the literals of a program, and their
  values, can be read off its text.
-/

namespace ScriptGraph

open Lowering

/-! ## Shapes -/

/-- What a literal shows: its name, place and value. -/
def Literal.shape (l : Literal) : String × Place × Binary32 :=
  (l.name, l.place, l.value)

namespace LiteralSource

/-- Where the literal of a source stands. -/
def place : LiteralSource → Place
  | .number _ => Place.origin
  | .declaration _ => Place.publicValue

/-- What the literal of a source shows. A number has no name of its own. -/
def shape : LiteralSource → String × Place × Binary32
  | .number value => ("Value", Place.origin, value)
  | .declaration name => (name, Place.publicValue, .ofInt 0)

theorem shape_snd_fst (source : LiteralSource) : source.shape.2.1 = source.place := by
  cases source <;> simp only [shape, place]

theorem shape_snd_snd (source : LiteralSource) : source.shape.2.2 = source.value := by
  cases source <;> simp only [shape, value]

/-- Public values stand where no number does. -/
theorem place_eq_publicValue_iff (source : LiteralSource) :
    source.place = Place.publicValue ↔ source.isDeclaration = true := by
  cases source with
  | number value =>
    have hne : Place.origin ≠ Place.publicValue := by decide +kernel
    exact iff_of_false hne Bool.false_ne_true
  | declaration name => exact iff_of_true rfl rfl

end LiteralSource

/-- What the literals of a graph show. -/
def Graph.shapes (g : Graph) : List (String × Place × Binary32) :=
  g.literals.map Literal.shape

/-- The values that the literals of a graph hold. -/
def Graph.values (g : Graph) : List Binary32 :=
  g.literals.map (·.value)

/-- The literals of numbers. -/
def numberShapes (values : List Binary32) : List (String × Place × Binary32) :=
  (values.map LiteralSource.number).map LiteralSource.shape

theorem numberShapes_append (values values' : List Binary32) :
    numberShapes (values ++ values') = numberShapes values ++ numberShapes values' := by
  rw [numberShapes, List.map_append, List.map_append]
  rfl

namespace Builder

theorem shapes_addLiteral (b : Builder) (name : String) (place : Place) (value : Binary32) :
    (b.addLiteral name place value).graph.shapes = b.graph.shapes ++ [(name, place, value)] :=
  List.map_append

theorem shapes_afterReading (b : Builder) (binding : Binding) :
    (b.afterReading binding).graph.shapes = b.graph.shapes := by
  cases binding <;> rfl

theorem shapes_afterConjunction (b : Builder) (outer : Option Wire) (inner : Wire) :
    (b.afterConjunction outer inner).graph.shapes = b.graph.shapes := by
  cases outer <;> rfl

theorem shapes_afterGating (b : Builder) (binding : Binding) (new : Wire)
    (previous condition : Option Wire) :
    (b.afterGating binding new previous condition).graph.shapes = b.graph.shapes := by
  rcases condition with _ | condition
  · rfl
  · rcases previous with _ | previous
    · exact b.shapes_afterReading binding
    · rfl

theorem shapes_afterStore (b : Builder) (name : String) (value : Wire) (last : Ref)
    (binding : Binding) :
    (b.afterStore name value last binding).graph.shapes = b.graph.shapes := by
  cases binding <;> rfl

end Builder

/-! ## Expressions -/

section

variable {t : Builtins}

mutual

/-- An expression makes literals of its numbers. -/
theorem ExprLowered.shapes_eq {e : Expr} {b b' : Builder} {w : Wire} (h : ExprLowered t e b w b') :
    b'.graph.shapes = b.graph.shapes ++ numberShapes (e.values b.names) := by
  cases h with
  | number value b => exact b.shapes_addLiteral _ _ value
  | bound hb => rw [b.shapes_afterReading, Expr.values]; exact (List.append_nil _).symm
  | constant hb ho => exact (List.append_nil _).symm
  | neg h => exact h.shapes_eq
  | not h => exact h.shapes_eq
  | binary hl hr ho =>
    rw [Expr.values, numberShapes_append, ← List.append_assoc, ← hl.shapes_eq,
      ← Builder.names_eq_of_scope_eq hl.scope_eq]
    exact hr.shapes_eq
  | component hb hp =>
    rw [Expr.values, b.names_eq_some hb, Option.isSome_some, if_pos rfl]
    exact (b.shapes_afterReading _).trans (List.append_nil _).symm
  | @function receiver member args _ _ _ _ hb ho ha =>
    have hn : b.names receiver.text = none := by rw [Builder.names, hb, Option.map_none]
    rw [Expr.values, hn, if_neg (by simp)]
    exact ha.shapes_eq
  | construct ho ha => exact ha.shapes_eq

/-- Arguments make literals of their numbers. -/
theorem ArgsLowered.shapes_eq {target : Ref} {pin : Nat} {args : List Expr} {b b' : Builder}
    {ws : List Wire} (h : ArgsLowered t target pin args b ws b') :
    b'.graph.shapes = b.graph.shapes ++ numberShapes (Expr.argsValues b.names args) := by
  cases h with
  | nil => exact (List.append_nil _).symm
  | cons h hs =>
    rw [Expr.argsValues, numberShapes_append, ← List.append_assoc, ← h.shapes_eq,
      ← Builder.names_eq_of_scope_eq h.scope_eq]
    exact hs.shapes_eq

end

/-! ## Statements -/

/-- The right-hand side of an assignment makes literals of its numbers. -/
theorem AssignedLowered.shapes_eq {binding : Binding} {op : AssignOp} {e : Expr} {b b' : Builder}
    {new : Wire} {previous : Option Wire}
    (h : AssignedLowered t binding op e b new previous b') :
    b'.graph.shapes = b.graph.shapes ++ numberShapes (e.values b.names) := by
  cases h with
  | plain hop he => exact he.shapes_eq
  | compound hop he ho =>
    rw [← b.shapes_afterReading binding,
      ← Builder.names_eq_of_scope_eq (b.scope_afterReading binding)]
    exact he.shapes_eq

theorem OutputsLowered.shapes_eq {index : Nat} {values : List Expr} {b b' : Builder}
    (h : OutputsLowered t index values b b') :
    b'.graph.shapes = b.graph.shapes ++ numberShapes (Expr.argsValues b.names values) := by
  induction h with
  | nil index b => exact (List.append_nil _).symm
  | @cons index value values b b₁ b₂ w h hs ih =>
    rw [Expr.argsValues, numberShapes_append, ← List.append_assoc, ← h.shapes_eq,
      ← Builder.names_eq_of_scope_eq h.scope_eq, ih]
    rw [Graph.shapes, Builder.connect, Builder.ensureOutput_literals]
    rfl

mutual

/-- A statement makes the literals of its text, and hides the names that it declares. -/
theorem StmtLowered.shapes_eq {condition : Option Wire} {last last' : Ref} {s : Stmt}
    {b b' : Builder} (h : StmtLowered t condition last s b last' b') :
    b'.graph.shapes = b.graph.shapes ++ (s.sources b.names).map LiteralSource.shape ∧
      b'.names = b.names.hide s.declared := by
  cases h with
  | declarePublic hp hi ht =>
    rw [Stmt.sources, hp, if_pos rfl]
    exact ⟨b.shapes_addLiteral _ _ _, Builder.names_hide rfl rfl⟩
  | declare hp hi he =>
    rw [Stmt.sources, hp, if_neg Bool.false_ne_true, hi, Option.elim_some]
    refine ⟨he.shapes_eq, (Builder.names_hide rfl rfl).trans ?_⟩
    rw [Builder.names_eq_of_scope_eq he.scope_eq, Stmt.declared]
  | @assign _ _ target op value span _ b₁ binding new previous hb ha =>
    have hscope := (b₁.scope_afterGating binding new previous condition).trans ha.scope_eq
    refine ⟨?_, ?_⟩
    · rw [Builder.shapes_afterStore, Builder.shapes_afterGating]
      exact ha.shapes_eq
    · rw [Stmt.declared, Names.hide_nil, Builder.names_afterStore (by rw [hscope]; exact hb)]
      exact Builder.names_eq_of_scope_eq hscope
  | @branch _ _ _ test thenBody _ _ b₁ _ w he ht =>
    have hn := Builder.names_eq_of_scope_eq
      ((b₁.scope_afterConjunction condition w).trans he.scope_eq)
    obtain ⟨hs₂, hn₂⟩ := ht.shapes_eq
    rw [hn, Builder.shapes_afterConjunction, he.shapes_eq] at hs₂
    rw [hn] at hn₂
    rw [Stmt.sources, List.map_append, ← List.append_assoc]
    exact ⟨hs₂, hn₂⟩
  | @branchElse _ _ _ _ test thenBody elseBody _ _ b₁ b₂ b₃ _ w he ht hnot hf =>
    have hn := Builder.names_eq_of_scope_eq
      ((b₁.scope_afterConjunction condition w).trans he.scope_eq)
    have hscope₃ : b₃.scope = b₂.scope := by rw [hnot]; rfl
    have hshapes₃ : b₃.graph.shapes = b₂.graph.shapes := by rw [hnot]; rfl
    have hn₃ := Builder.names_eq_of_scope_eq
      ((b₃.scope_afterConjunction condition (.ofRef .bool b₂.next)).trans hscope₃)
    obtain ⟨hs₂, hn₂⟩ := ht.shapes_eq
    obtain ⟨hs₄, hn₄⟩ := hf.shapes_eq
    rw [hn, Builder.shapes_afterConjunction, he.shapes_eq] at hs₂
    rw [hn] at hn₂
    rw [hn₃, hn₂, Builder.shapes_afterConjunction, hshapes₃, hs₂] at hs₄
    rw [hn₃, hn₂] at hn₄
    rw [Stmt.sources, Stmt.declared, Names.hide_append, List.map_append, List.map_append,
      ← List.append_assoc, ← List.append_assoc]
    exact ⟨hs₄, hn₄⟩
  | ret h =>
    rw [Stmt.declared, Names.hide_nil]
    exact ⟨h.shapes_eq, Builder.names_eq_of_scope_eq h.scope_eq⟩
  | call h =>
    rw [Stmt.declared, Names.hide_nil]
    exact ⟨h.shapes_eq, Builder.names_eq_of_scope_eq h.scope_eq⟩

/-- So do statements one after another. -/
theorem BodyLowered.shapes_eq {condition : Option Wire} {last last' : Ref} {body : List Stmt}
    {b b' : Builder} (h : BodyLowered t condition last body b last' b') :
    b'.graph.shapes = b.graph.shapes ++ (Stmt.bodySources b.names body).map LiteralSource.shape ∧
      b'.names = b.names.hide (Stmt.bodyDeclared body) := by
  cases h with
  | nil => exact ⟨(List.append_nil _).symm, (Names.hide_nil _).symm⟩
  | cons h hr hs =>
    obtain ⟨hs₁, hn₁⟩ := h.shapes_eq
    obtain ⟨hs₂, hn₂⟩ := hs.shapes_eq
    rw [hn₁] at hs₂ hn₂
    rw [Stmt.bodySources, Stmt.bodyDeclared, Names.hide_append, List.map_append,
      ← List.append_assoc, ← hs₁]
    exact ⟨hs₂, hn₂⟩

end

end

/-! ## Programs -/

/-- The literals of a program's graph are those of its text. -/
theorem ProgramLowered.shapes_eq {t : Builtins} {p : Program} {first : Ref} {g : Graph}
    (h : ProgramLowered t p first g) : g.shapes = p.sources.map LiteralSource.shape := by
  obtain ⟨hg, he⟩ := h
  rename_i b₁ b₂
  have hshapes₁ : b₁.graph.shapes = [] := by
    rw [hg.graph_eq]
    rfl
  rcases hm : p.entry? with _ | m
  · rw [hm] at he
    cases he
    rw [Program.sources, hm]
    exact hshapes₁
  · rw [hm] at he
    cases he with
    | present hp hb =>
      rename_i b b' last
      have hshapes : b.graph.shapes = [] := by
        rw [hp.graph_eq.1]
        exact hshapes₁
      have hnames : b.names = p.names m := by
        rw [hp.names, hg.names]
        rfl
      have hall := hb.shapes_eq.1
      rw [hshapes, List.nil_append, hnames] at hall
      rw [Program.sources, hm, Option.elim_some]
      exact hall

/-- The literals of a program's graph hold the numbers of the program. -/
theorem ProgramLowered.values_eq {t : Builtins} {p : Program} {first : Ref} {g : Graph}
    (h : ProgramLowered t p first g) : g.values = p.values := by
  calc g.values
    _ = g.shapes.map (·.2.2) := by
      rw [Graph.shapes, List.map_map]
      rfl
    _ = p.sources.map LiteralSource.value := by
      rw [h.shapes_eq, List.map_map]
      exact List.map_congr_left fun source _ => source.shape_snd_snd
    _ = p.values := p.map_value_sources

end ScriptGraph
