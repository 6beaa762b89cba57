import ScriptGraph.Proofs.Lowering.Feeding
import ScriptGraph.Proofs.Tree.Roles

/-!
# Every input is connected once

The nodes of a graph are those that the text asks for, one for each role and in the same order, and a
node has as many inputs as its role says. Between two connections into a call, the connections of its
arguments are made; still what leads to one node leads to its inputs one after another.

* `Role.Fits`, `Role.LinksTo` — the operations that a node of a role may perform, and what it is linked
  to;
* `Graph.Drives` — the inputs of a node are connected once each, in increasing order;
* `ExprLowered.adds`, `StmtLowered.adds`, `ProgramLowered.adds` — lowering adds the nodes of the roles
  in the text;
* `lower_intact` — and these are linked as their roles say, in a graph whose connections all have two
  ends.
-/

namespace ScriptGraph

open Lowering Relation

/-- The operations that a node of a role may perform. -/
def Role.Fits (t : Builtins) (opcode : Opcode) : Role → Prop
  | .read => opcode = Opcode.readGlobal
  | .write => opcode = Opcode.writeGlobal
  | .constant name => t.constant? name = some opcode
  | .negate => opcode = Opcode.negate
  | .not => opcode = Opcode.not
  | .operator op => ∃ vector, t.operator? op.symbol vector = some opcode
  | .split => opcode = Opcode.splitVector2 ∨ opcode = Opcode.splitVector3
  | .and => opcode = Opcode.and
  | .select => opcode = Opcode.select
  | .function receiver member _ => t.member? receiver member = some opcode
  | .construct type _ => ∃ valueType, constructor? type = some (opcode, valueType)

/-- What a node of a role is linked to: an access to a variable to a record of it, and any other node
to nothing. -/
def Role.LinksTo (globals : List Variable) (linked : Ref) : Role → Prop
  | .read => ∃ v ∈ globals, v.ref = linked
  | .write => ∃ v ∈ globals, v.ref = linked
  | _ => linked = Ref.unlinked

/-- A link stays while declarations are added. -/
theorem Role.LinksTo.mono {role : Role} {globals globals' : List Variable} {linked : Ref}
    (h : role.LinksTo globals linked) (hg : globals <+: globals') :
    role.LinksTo globals' linked := by
  cases role with
  | read => exact h.imp fun v hv => ⟨hg.subset hv.1, hv.2⟩
  | write => exact h.imp fun v hv => ⟨hg.subset hv.1, hv.2⟩
  | _ => exact h

/-- The data connections into a node lead to its first `count` inputs, to each of them once and in
increasing order. -/
def Graph.Drives (g : Graph) (ref : Ref) (count : Nat) : Prop :=
  (g.feedsOf ref).map (·.targetPin) = List.range count

theorem map_targetPin_feeds (target : Ref) (pin : Nat) (ws : List Wire) :
    (feeds target pin ws).map (·.targetPin) = List.range' pin ws.length := by
  induction ws generalizing pin with
  | nil => rfl
  | cons w ws ih =>
    rw [feeds, List.map_cons, ih, List.length_cons, List.range'_succ]
    rfl

namespace Graph

variable {g : Graph} {ref : Ref} {count : Nat}

/-- Wires that are carried to a node one after another. -/
theorem drives_of_feeds {ws : List Wire} (h : g.feedsOf ref = feeds ref 0 ws) :
    g.Drives ref ws.length := by
  rw [Drives, h, map_targetPin_feeds, List.range_eq_range']

/-- The connections into the inputs of a node are in the order of the inputs already. -/
theorem Drives.dataInputs_eq (h : g.Drives ref count) : g.dataInputs ref = g.feedsOf ref := by
  have hs : ((g.feedsOf ref).map (·.targetPin)).Pairwise (· ≤ ·) := by
    rw [h]
    exact List.pairwise_le_range
  rw [Graph.dataInputs_eq]
  refine List.mergeSort_of_pairwise ((List.pairwise_map.mp hs).imp ?_)
  exact fun hle => by simpa using hle

end Graph

/-! ## What the names of a builder stand for -/

/-- A global variable is accessed by nodes. -/
def Binding.standing : Binding → Standing
  | .globalVar _ _ => .variable
  | .wire _ => .value
  | .parameter _ _ => .value

/-- What the names stand for. -/
def Builder.names (b : Builder) : Names :=
  fun name => (b.scope.get? name).map Binding.standing

namespace Builder

variable {b b' : Builder}

theorem names_eq_of_scope_eq (h : b'.scope = b.scope) : b'.names = b.names := by
  funext name
  rw [names, names, h]

theorem names_insert {name : String} {binding : Binding}
    (h : b'.scope = b.scope.insert name binding) (other : String) :
    b'.names other = if other = name then some binding.standing else b.names other := by
  rw [names, h]
  split
  · next ho => rw [ho, Dictionary.get?_insert_self, Option.map_some]
  · next ho => rw [Dictionary.get?_insert_of_ne ho, names]

/-- A value under a name hides what the name stood for. -/
theorem names_hide {name : String} {binding : Binding} (h : b'.scope = b.scope.insert name binding)
    (hs : binding.standing = .value) : b'.names = b.names.hide [name] := by
  funext other
  simp only [names_insert h, hs, Names.hide, List.mem_singleton]

theorem names_eq_some {name : String} {binding : Binding}
    (h : b.scope.get? name = some binding) : b.names name = some binding.standing := by
  rw [names, h, Option.map_some]

theorem reads_names {name : String} {binding : Binding}
    (h : b.scope.get? name = some binding) : b.names.reads name = binding.standing.reads := by
  rw [Names.reads, names_eq_some h, Option.elim_some]

theorem writes_names {name : String} {binding : Binding}
    (h : b.scope.get? name = some binding) : b.names.writes name = binding.standing.writes := by
  rw [Names.writes, names_eq_some h, Option.elim_some]

end Builder

/-! ## Nodes that are added -/

/-- A node of a graph that is there for a role. -/
structure Role.Describes (t : Builtins) (g : Graph) (role : Role) (n : Node) : Prop where
  /-- it performs an operation of the role -/
  fits : role.Fits t n.opcode
  /-- its inputs are connected -/
  drives : g.Drives n.ref role.arity
  /-- it is linked to the variable that it accesses, if it accesses one -/
  links : role.LinksTo g.globals n.linked

/-- From one site to another, nodes of some roles are added, with all their inputs. -/
def Site.Adds (t : Builtins) (roles : List Role) (s s' : Site) : Prop :=
  ∃ ns, s'.builder.graph.nodes = s.builder.graph.nodes ++ ns ∧
    List.Forall₂ (Role.Describes t s'.builder.graph) roles ns

namespace Site.Adds

variable {t : Builtins} {first : Ref} {s s₁ s₂ : Site} {roles roles' : List Role}
  {calls : List (Ref × List Wire)} {b : Builder} {opcode : Opcode}

theorem nil (h : s₁.builder.graph.nodes = s.builder.graph.nodes) : s.Adds t [] s₁ :=
  ⟨[], by rw [h, List.append_nil], .nil⟩

/-- More nodes are added, and what was added keeps its connections. -/
theorem grow (h : s.Adds t roles s₁) (ns : List Node)
    (hn : s₂.builder.graph.nodes = s₁.builder.graph.nodes ++ ns)
    (hg : s₁.builder.graph.globals <+: s₂.builder.graph.globals)
    (hf : ∀ n ∈ s₁.builder.graph.nodes,
      s₂.builder.graph.feedsOf n.ref = s₁.builder.graph.feedsOf n.ref)
    (hns : List.Forall₂ (Role.Describes t s₂.builder.graph) roles' ns) :
    s.Adds t (roles ++ roles') s₂ := by
  obtain ⟨old, ho, hold⟩ := h
  refine ⟨old ++ ns, by rw [hn, ho, List.append_assoc], List.rel_append ?_ hns⟩
  rw [List.forall₂_iff_zip] at hold ⊢
  refine ⟨hold.1, fun {role n} hm => ?_⟩
  have hmem : n ∈ s₁.builder.graph.nodes := by
    rw [ho]
    exact List.mem_append_right _ (List.of_mem_zip hm).2
  obtain ⟨hfits, hdrives, hlinks⟩ := hold.2 hm
  refine ⟨hfits, ?_, hlinks.mono hg⟩
  rw [Graph.Drives, hf n hmem]
  exact hdrives

theorem trans (h₁ : s.Adds t roles s₁) (h₂ : s₁.Adds t roles' s₂) (hv : s₁.Valid t first)
    (hr : Steps t s₁ s₂) : s.Adds t (roles ++ roles') s₂ := by
  obtain ⟨ns, hn, hns⟩ := h₂
  exact h₁.grow ns hn hr.le.globals (fun n hm => hr.feedsOf_node hv hm) hns

/-- A node is added with all its inputs. -/
theorem emit (h : s.Adds t roles ⟨calls, b⟩) (role : Role) (hv : Site.Valid t first ⟨calls, b⟩)
    (hfits : role.Fits t opcode) {linked : Ref} (hlinks : role.LinksTo b.graph.globals linked)
    (place : Place) {inputs : List Wire} (hlen : inputs.length = role.arity) :
    s.Adds t (roles ++ [role]) ⟨calls, b.emit opcode place linked inputs⟩ := by
  refine h.grow [⟨opcode, b.next, place, linked⟩] rfl List.prefix_rfl (fun n hn => ?_)
    (.cons ⟨hfits, ?_, hlinks⟩ .nil)
  · exact b.feedsOf_emit_of_ne _ _ _ _ (Int.ne_of_lt (hv.node_lt hn))
  · rw [← hlen]
    exact Graph.drives_of_feeds
      (Builder.feedsOf_emit_self (hv.feedsOf_eq_nil (Int.le_refl _)) _ _ _ _)

/-- The node of a call is added, whose arguments it has got. -/
theorem closeCall {ref : Ref} {ws : List Wire} (role : Role)
    (h : s.Adds t roles ⟨(ref, ws) :: calls, b⟩)
    (hv : Site.Valid t first ⟨(ref, ws) :: calls, b⟩) (hfits : role.Fits t opcode)
    (hlinks : role.LinksTo b.graph.globals Ref.unlinked) (place : Place)
    (hlen : ws.length = role.arity) :
    s.Adds t (roles ++ [role]) ⟨calls, b.addNode ⟨opcode, ref, place, Ref.unlinked⟩⟩ := by
  refine h.grow [⟨opcode, ref, place, Ref.unlinked⟩] rfl List.prefix_rfl (fun n hn => rfl)
    (.cons ⟨hfits, ?_, hlinks⟩ .nil)
  rw [← hlen]
  exact Graph.drives_of_feeds (hv.gathered (ref, ws) (List.mem_cons_self ..))

/-- The chain of execution is no input. -/
theorem chain (h : s.Adds t roles ⟨calls, b⟩) (source target : Ref) :
    s.Adds t roles ⟨calls, b.connect (.execution source target)⟩ := by
  have hgrow : s.Adds t (roles ++ []) ⟨calls, b.connect (.execution source target)⟩ :=
    h.grow [] (List.append_nil _).symm List.prefix_rfl (fun n _ => Graph.feedsOf_execution rfl n.ref) .nil
  rwa [List.append_nil] at hgrow

end Site.Adds

/-! ## Expressions -/

section

variable {t : Builtins} {first : Ref} {calls : List (Ref × List Wire)}

/-- Reading a binding adds a node if it is a global variable. -/
theorem Site.adds_afterReading {b : Builder} (hv : Site.Valid t first ⟨calls, b⟩)
    {binding : Binding} (hb : b.YieldsBinding binding) :
    Site.Adds t binding.standing.reads ⟨calls, b⟩ ⟨calls, b.afterReading binding⟩ := by
  cases binding with
  | wire wire => exact .nil rfl
  | parameter type pin => exact .nil rfl
  | globalVar type ref => exact (Site.Adds.nil rfl).emit .read hv rfl hb _ rfl

/-- A run of an expression keeps a site valid and binds nothing. -/
theorem ExprSteps.keeps {s s' : Site} (h : ExprSteps t s s') (hv : s.Valid t first) :
    s'.Valid t first ∧ s'.builder.names = s.builder.names :=
  ⟨h.steps.valid hv, Builder.names_eq_of_scope_eq h.frame.1⟩

theorem ArgsLowered.length_eq {target : Ref} {pin : Nat} {args : List Expr} {b b' : Builder}
    {ws : List Wire} (h : ArgsLowered t target pin args b ws b') : ws.length = args.length := by
  induction args generalizing pin b ws with
  | nil =>
    cases h
    rfl
  | cons arg args ih =>
    cases h with
    | cons _ hs => rw [List.length_cons, List.length_cons, ih hs]

mutual

/-- Lowering an expression adds the nodes that it asks for. -/
theorem ExprLowered.adds {e : Expr} {b b' : Builder} {w : Wire} (h : ExprLowered t e b w b')
    {calls : List (Ref × List Wire)} (hv : Site.Valid t first ⟨calls, b⟩) :
    Site.Adds t (e.roles b.names) ⟨calls, b⟩ ⟨calls, b'⟩ := by
  cases h with
  | number value b => exact .nil rfl
  | bound hb =>
    rw [Expr.roles, b.names_eq_some hb, Option.isSome_some, if_pos rfl, b.reads_names hb]
    exact Site.adds_afterReading hv (hv.sound.scope _ _ hb)
  | @constant name _ _ hb ho =>
    have hn : b.names name.text = none := by rw [Builder.names, hb, Option.map_none]
    rw [Expr.roles, hn, if_neg (by simp)]
    exact (Site.Adds.nil rfl).emit (.constant name.text) hv ho rfl _ rfl
  | neg h =>
    obtain ⟨hv₁, -⟩ := (h.steps hv.sound calls).1.keeps hv
    exact (h.adds hv).emit .negate hv₁ rfl rfl _ rfl
  | not h =>
    obtain ⟨hv₁, -⟩ := (h.steps hv.sound calls).1.keeps hv
    exact (h.adds hv).emit .not hv₁ rfl rfl _ rfl
  | @binary op _ _ _ _ _ _ _ _ hl hr ho =>
    obtain ⟨hv₁, hn₁⟩ := (hl.steps hv.sound calls).1.keeps hv
    have hr₂ := (hr.steps hv₁.sound calls).1
    obtain ⟨hv₂, -⟩ := hr₂.keeps hv₁
    have ha := hr.adds hv₁
    rw [hn₁] at ha
    exact ((hl.adds hv).trans ha hv₁ hr₂.steps).emit (.operator op) hv₂ ⟨_, ho⟩ rfl _ rfl
  | @component receiver member args _ binding pin hb hp =>
    obtain ⟨hv₁, -⟩ := (steps_afterReading (hv.sound.scope _ _ hb) calls).1.keeps hv
    rw [Expr.roles, b.names_eq_some hb, Option.isSome_some, if_pos rfl, b.reads_names hb]
    refine (Site.adds_afterReading hv (hv.sound.scope _ _ hb)).emit .split hv₁ ?_ rfl _ rfl
    by_cases hvector : (b.reading binding).type = .vector3
    · exact .inr (if_pos hvector)
    · exact .inl (if_neg hvector)
  | @function receiver member args _ _ _ _ hb ho ha =>
    have hn : b.names receiver.text = none := by rw [Builder.names, hb, Option.map_none]
    have hopen : ExprSteps t ⟨calls, b⟩ ⟨(b.next, []) :: calls, b.reserve⟩ := .single (.openCall ..)
    obtain ⟨hv₀, -⟩ := hopen.keeps hv
    obtain ⟨hv₁, -⟩ := (ha.steps hv₀.sound [] rfl calls).keeps hv₀
    rw [Expr.roles, hn, if_neg (by simp)]
    -- the id that the call takes adds no node
    exact Site.Adds.closeCall (.function receiver.text member.text args.length)
      (ha.adds [] rfl hv₀) hv₁ ho rfl _ ha.length_eq
  | @construct type args _ _ _ valueType _ ho ha =>
    have hopen : ExprSteps t ⟨calls, b⟩ ⟨(b.next, []) :: calls, b.reserve⟩ := .single (.openCall ..)
    obtain ⟨hv₀, -⟩ := hopen.keeps hv
    obtain ⟨hv₁, -⟩ := (ha.steps hv₀.sound [] rfl calls).keeps hv₀
    exact Site.Adds.closeCall (.construct type.text args.length)
      (ha.adds [] rfl hv₀) hv₁ ⟨valueType, ho⟩ rfl _ ha.length_eq

/-- So does lowering arguments, for all of them. -/
theorem ArgsLowered.adds {target : Ref} {pin : Nat} {args : List Expr} {b b' : Builder}
    {ws : List Wire} (h : ArgsLowered t target pin args b ws b') (taken : List Wire)
    (hp : taken.length = pin) {calls : List (Ref × List Wire)}
    (hv : Site.Valid t first ⟨(target, taken) :: calls, b⟩) :
    Site.Adds t (Expr.argsRoles b.names args) ⟨(target, taken) :: calls, b⟩
      ⟨(target, taken ++ ws) :: calls, b'⟩ := by
  cases h with
  | nil => exact .nil rfl
  | @cons _ _ _ _ _ b₁ _ w ws h hs =>
    subst hp
    obtain ⟨hr₁, hw⟩ := h.steps hv.sound ((target, taken) :: calls)
    have hr₂ := ReflTransGen.tail hr₁ (ExprStep.argument hw)
    obtain ⟨hv₁, -⟩ := hr₁.keeps hv
    obtain ⟨hv₂, hn₂⟩ := ExprSteps.keeps hr₂ hv
    have hr₃ := hs.steps hv₂.sound (taken ++ [w]) List.length_append calls
    have ha := hs.adds (taken ++ [w]) List.length_append hv₂
    rw [hn₂, List.append_assoc] at ha
    rw [List.append_assoc] at hr₃
    have hc : Site.Adds t [] ⟨(target, taken) :: calls, b₁⟩
        ⟨(target, taken ++ [w]) :: calls, b₁.connect (.data w.ref w.pin target taken.length)⟩ :=
      .nil rfl
    exact (h.adds hv).trans (hc.trans ha hv₂ hr₃.steps) hv₁
      (.head (.expr (.argument hw)) hr₃.steps)

end

/-! ## Statements -/

/-- The right-hand side of an assignment adds the nodes of its value, between those that read the old
value and the operator if it takes part. -/
theorem AssignedLowered.adds {binding : Binding} {op : AssignOp} {e : Expr} {b b' : Builder}
    {new : Wire} {previous : Option Wire}
    (h : AssignedLowered t binding op e b new previous b') (hv : Site.Valid t first ⟨[], b⟩)
    (hb : b.YieldsBinding binding) :
    Site.Adds t
        (match op.binaryOp? with
          | none => e.roles b.names
          | some op => binding.standing.reads ++ e.roles b.names ++ [.operator op])
        ⟨[], b⟩ ⟨[], b'⟩ ∧
      previous.isSome = op.binaryOp?.isSome := by
  cases h with
  | plain hop he =>
    rw [hop]
    exact ⟨he.adds hv, rfl⟩
  | compound hop he ho =>
    obtain ⟨hv₁, hn₁⟩ := (steps_afterReading (t := t) hb []).1.keeps hv
    have hr₂ := (he.steps hv₁.sound []).1
    obtain ⟨hv₂, -⟩ := hr₂.keeps hv₁
    have ha := he.adds hv₁
    rw [hn₁] at ha
    have hall := (Site.adds_afterReading hv hb).trans ha hv₁ hr₂.steps
    rw [hop]
    exact ⟨hall.emit (.operator _) hv₂ ⟨_, ho⟩ rfl _ rfl, rfl⟩

/-- Gating a value adds the choice, and before it a node that reads the previous value if that was not
read. -/
theorem Site.adds_afterGating {b : Builder} (hv : Site.Valid t first ⟨[], b⟩) {binding : Binding}
    (hb : b.YieldsBinding binding) (new : Wire) (previous condition : Option Wire) :
    Site.Adds t
      (if condition.isSome then
        (if previous.isSome then [] else binding.standing.reads) ++ [.select]
      else [])
      ⟨[], b⟩ ⟨[], b.afterGating binding new previous condition⟩ := by
  cases condition with
  | none => exact .nil rfl
  | some condition =>
    cases previous with
    | some previous => exact (Site.Adds.nil rfl).emit .select hv rfl rfl _ rfl
    | none =>
      obtain ⟨hv₁, -⟩ := (steps_afterReading (t := t) hb []).1.keeps hv
      exact (Site.adds_afterReading hv hb).emit .select hv₁ rfl rfl _ rfl

/-- Storing a value adds a node if the target is a global variable. -/
theorem Site.adds_afterStore {b : Builder} (hv : Site.Valid t first ⟨[], b⟩) {binding : Binding}
    (hb : b.YieldsBinding binding) (name : String) (value : Wire) (last : Ref) :
    Site.Adds t binding.standing.writes ⟨[], b⟩ ⟨[], b.afterStore name value last binding⟩ := by
  cases binding with
  | wire wire => exact .nil rfl
  | parameter type pin => exact .nil rfl
  | globalVar type ref =>
    have h : Site.Adds t [.write] ⟨[], b⟩
        ⟨[], b.emit Opcode.writeGlobal Place.globalWrite ref [value]⟩ :=
      (Site.Adds.nil rfl).emit .write hv rfl hb _ rfl
    exact h.chain last b.next

/-- A target that is assigned to stands for what it stood for, a value or a global variable. -/
theorem Builder.names_afterStore {b : Builder} {name : String} {binding : Binding}
    (hb : b.scope.get? name = some binding) (value : Wire) (last : Ref) :
    (b.afterStore name value last binding).names = b.names := by
  have hvalue : binding.standing = .value →
      (b.bind name (.wire value)).names = b.names := by
    intro hs
    rw [names_hide (b := b) rfl rfl]
    funext other
    rw [Names.hide]
    split
    · next ho => rw [List.mem_singleton.mp ho, b.names_eq_some hb, hs]
    · rfl
  cases binding with
  | wire wire => exact hvalue rfl
  | parameter type pin => exact hvalue rfl
  | globalVar type ref => rfl

/-- Joining a condition with an outer one adds a node. -/
theorem Site.adds_afterConjunction {b : Builder} (hv : Site.Valid t first ⟨[], b⟩)
    (outer : Option Wire) (inner : Wire) :
    Site.Adds t (Stmt.joint outer.isSome) ⟨[], b⟩ ⟨[], b.afterConjunction outer inner⟩ := by
  cases outer with
  | none => exact .nil rfl
  | some outer => exact (Site.Adds.nil rfl).emit .and hv rfl rfl _ rfl

/-- Entering the first body of a choice adds the nodes of the test and the joint. -/
theorem ExprLowered.adds_then {test : Expr} {b b₁ : Builder} {w : Wire}
    (h : ExprLowered t test b w b₁) (hv : Site.Valid t first ⟨[], b⟩) {outer : Option Wire}
    (ho : ∀ v ∈ outer, b.Yields v) :
    Site.Adds t (test.roles b.names ++ Stmt.joint outer.isSome) ⟨[], b⟩
      ⟨[], b₁.afterConjunction outer w⟩ := by
  obtain ⟨hr₁, hw⟩ := h.steps hv.sound []
  obtain ⟨hv₁, -⟩ := hr₁.keeps hv
  obtain ⟨hr₂, -⟩ := steps_afterConjunction (t := t) (fun v hv => (ho v hv).mono hr₁.le) hw
  exact (h.adds hv).trans (Site.adds_afterConjunction hv₁ outer w) hv₁ hr₂.steps

/-- Entering the second body adds the negation of the test and the joint. -/
theorem Site.adds_else {b b₁ : Builder} {w : Wire} (hv : Site.Valid t first ⟨[], b⟩)
    (hn : b₁ = b.operate Opcode.not (placeFor w.isPublic) [w]) (hw : b.Yields w)
    {outer : Option Wire} (ho : ∀ v ∈ outer, b.Yields v) :
    Site.Adds t ([.not] ++ Stmt.joint outer.isSome) ⟨[], b⟩
      ⟨[], b₁.afterConjunction outer (.ofRef .bool b.next)⟩ := by
  subst hn
  have hr₁ : ExprSteps t ⟨[], b⟩ ⟨[], b.operate Opcode.not (placeFor w.isPublic) [w]⟩ :=
    .single (.node (.not w) (by simpa using hw))
  obtain ⟨hv₁, -⟩ := hr₁.keeps hv
  obtain ⟨hr₂, -⟩ := steps_afterConjunction (t := t) (fun v hv => (ho v hv).mono hr₁.le)
    (b.yields_operate _ _ _ _ _)
  have hnot : Site.Adds t [.not] ⟨[], b⟩
      ⟨[], b.operate Opcode.not (placeFor w.isPublic) [w]⟩ :=
    (Site.Adds.nil rfl).emit .not hv rfl rfl _ rfl
  exact hnot.trans (Site.adds_afterConjunction hv₁ outer _) hv₁ hr₂.steps

/-- Carrying values to the outputs adds the nodes of the values. -/
theorem OutputsLowered.adds {index : Nat} {values : List Expr} {b b' : Builder}
    (h : OutputsLowered t index values b b') (hv : Site.Valid t first ⟨[], b⟩)
    (hi : index ≤ b.graph.outputs.length) :
    Site.Adds t (Expr.argsRoles b.names values) ⟨[], b⟩ ⟨[], b'⟩ ∧ b'.names = b.names := by
  induction h with
  | nil index b => exact ⟨.nil rfl, rfl⟩
  | @cons index value values b b₁ b₂ w h hs ih =>
    obtain ⟨hr₁, hw⟩ := h.steps hv.sound []
    obtain ⟨hv₁, hn₁⟩ := hr₁.keeps hv
    have ho : b₁.graph.outputs = b.graph.outputs := hr₁.frame.2.2.2
    have hi₁ : index ≤ b₁.graph.outputs.length := ho ▸ hi
    have hstep : Step t ⟨[], b₁⟩ _ := .output hw hi₁
    have hv₂ := hstep.valid hv₁
    have hlen := (Builder.lt_ensureOutput_outputs hi₁).1
    obtain ⟨ha, hn⟩ := ih hv₂ hlen
    have hn₂ : ((b₁.ensureOutput index).connect (.data w.ref w.pin Ref.endpoint index)).names =
        b.names := hn₁
    have hr₃ := hs.steps hv₂.sound hlen
    have hc : Site.Adds t [] ⟨[], b₁⟩
        ⟨[], (b₁.ensureOutput index).connect (.data w.ref w.pin Ref.endpoint index)⟩ :=
      .nil (b₁.ensureOutput_nodes index)
    rw [hn₂] at ha hn
    exact ⟨(h.adds hv).trans (hc.trans ha hv₂ hr₃) hv₁ (.head hstep hr₃), hn⟩

mutual

/-- Lowering a statement adds the nodes that it asks for, and hides the names that it declares. -/
theorem StmtLowered.adds {condition : Option Wire} {last last' : Ref} {s : Stmt} {b b' : Builder}
    (h : StmtLowered t condition last s b last' b') (hv : Site.Valid t first ⟨[], b⟩)
    (hc : ∀ w ∈ condition, b.Yields w) :
    Site.Adds t (s.roles condition.isSome b.names) ⟨[], b⟩ ⟨[], b'⟩ ∧
      b'.names = b.names.hide s.declared := by
  cases h with
  | declarePublic hp hi ht =>
    rw [Stmt.roles, hi, Option.elim_none]
    exact ⟨.nil rfl, Builder.names_hide rfl rfl⟩
  | declare hp hi he =>
    obtain ⟨-, hn⟩ := (he.steps hv.sound []).1.keeps hv
    rw [Stmt.roles, hi, Option.elim_some]
    refine ⟨he.adds hv, (Builder.names_hide rfl rfl).trans ?_⟩
    exact congrArg (fun names : Names => names.hide _) hn
  | @assign _ _ target op value span _ b₁ binding new previous hb ha =>
    have hb₀ := hv.sound.scope _ _ hb
    obtain ⟨hr₁, hnew, hprevious⟩ := ha.steps hv.sound hb₀
    obtain ⟨hv₁, -⟩ := hr₁.keeps hv
    have hb₁ := hb₀.mono hr₁.le
    obtain ⟨hr₂, hkept⟩ := steps_afterGating (t := t) hb₁ hnew hprevious
      fun w hw => (hc w hw).mono hr₁.le
    obtain ⟨hv₂, -⟩ := hr₂.keeps hv₁
    have hscope := (ExprSteps.frame (hr₁.trans hr₂)).1
    obtain ⟨hvalue, hsome⟩ := ha.adds hv hb₀
    have hall := (hvalue.trans (Site.adds_afterGating hv₁ hb₁ new previous condition) hv₁
      hr₂.steps).trans (Site.adds_afterStore hv₂ (hb₁.mono hr₂.le) target.text _ last) hv₂
      (.single (step_afterStore (hb₁.mono hr₂.le) hkept))
    refine ⟨?_, ?_⟩
    · rw [Stmt.roles]
      rcases hop : op.binaryOp? with _ | bop
      · rw [hop] at hall hsome
        simpa [Stmt.assignRoles, b.reads_names hb, b.writes_names hb, hsome] using hall
      · rw [hop] at hall hsome
        simpa [Stmt.assignRoles, b.reads_names hb, b.writes_names hb, hsome] using hall
    · rw [Stmt.declared, Names.hide_nil, Builder.names_afterStore (by rw [hscope]; exact hb)]
      exact Builder.names_eq_of_scope_eq hscope
  | branch he ht =>
    obtain ⟨hr₁, hj, -⟩ := he.steps_then hv.sound hc
    obtain ⟨hv₁, hn₁⟩ := hr₁.keeps hv
    obtain ⟨ha, hn⟩ := ht.adds hv₁ hj.some
    rw [hn₁] at ha hn
    exact ⟨(he.adds_then hv hc).trans ha hv₁ (ht.steps hv₁.sound hj.some), hn⟩
  | branchElse he ht hnot hf =>
    obtain ⟨hr₁, hj, hw⟩ := he.steps_then hv.sound hc
    obtain ⟨hv₁, hn₁⟩ := hr₁.keeps hv
    obtain ⟨ha₂, hn₂⟩ := ht.adds hv₁ hj.some
    rw [hn₁] at ha₂ hn₂
    have hr₂ := ht.steps hv₁.sound hj.some
    have hv₂ := hr₂.valid hv₁
    have hc₂ : ∀ w ∈ condition, _ := fun w hw => ((hc w hw).mono hr₁.le).mono hr₂.le
    obtain ⟨hr₃, hj'⟩ := steps_else (t := t) hnot (hw.mono hr₂.le) hc₂
    obtain ⟨hv₃, hn₃⟩ := hr₃.keeps hv₂
    obtain ⟨ha₄, hn₄⟩ := hf.adds hv₃ hj'.some
    rw [hn₃.trans hn₂] at ha₄ hn₄
    have hall := (((he.adds_then hv hc).trans ha₂ hv₁ hr₂).trans
      (Site.adds_else hv₂ hnot (hw.mono hr₂.le) hc₂) hv₂ hr₃.steps).trans ha₄ hv₃
      (hf.steps hv₃.sound hj'.some)
    rw [Stmt.roles, Stmt.declared, Names.hide_append]
    rw [← List.append_assoc] at hall
    exact ⟨hall, hn₄⟩
  | ret h =>
    obtain ⟨ha, hn⟩ := h.adds hv (Nat.zero_le _)
    rw [Stmt.declared, Names.hide_nil]
    exact ⟨ha.chain last Ref.endpoint, hn⟩
  | call h =>
    obtain ⟨-, hn⟩ := (h.steps hv.sound []).1.keeps hv
    rw [Stmt.declared, Names.hide_nil]
    exact ⟨h.adds hv, hn⟩

/-- So does lowering statements one after another. -/
theorem BodyLowered.adds {condition : Option Wire} {last last' : Ref} {body : List Stmt}
    {b b' : Builder} (h : BodyLowered t condition last body b last' b')
    (hv : Site.Valid t first ⟨[], b⟩) (hc : ∀ w ∈ condition, b.Yields w) :
    Site.Adds t (Stmt.bodyRoles condition.isSome b.names body) ⟨[], b⟩ ⟨[], b'⟩ ∧
      b'.names = b.names.hide (Stmt.bodyDeclared body) := by
  cases h with
  | nil => exact ⟨.nil rfl, (Names.hide_nil _).symm⟩
  | cons h hr hs =>
    have hr₁ := h.steps hv.sound hc
    have hv₁ := hr₁.valid hv
    have hc₁ : ∀ w ∈ condition, _ := fun w hw => (hc w hw).mono hr₁.le
    obtain ⟨ha₁, hn₁⟩ := h.adds hv hc
    obtain ⟨ha₂, hn₂⟩ := hs.adds hv₁ hc₁
    rw [hn₁] at ha₂ hn₂
    rw [Stmt.bodyRoles, Stmt.bodyDeclared, Names.hide_append]
    exact ⟨ha₁.trans ha₂ hv₁ (hs.steps hv₁.sound hc₁), hn₂⟩

end

end

/-! ## Programs -/

/-- Declared variables are what their names stand for. -/
theorem GlobalsLowered.names {ds : List Declaration} {b b' : Builder} (h : GlobalsLowered ds b b') :
    b'.names = fun name =>
      if name ∈ ds.map (·.name.text) then some .variable else b.names name := by
  induction h with
  | nil b => simp
  | @cons d ds b b' type default ht hd hs ih =>
    funext name
    have hscope : (b.declareGlobal d.name.text type default).scope =
        b.scope.insert d.name.text (.globalVar type b.next) := rfl
    have hd := Builder.names_insert hscope name
    rw [ih]
    simp only [hd, List.map_cons, List.mem_cons]
    by_cases h₁ : name ∈ ds.map (·.name.text) <;> by_cases h₂ : name = d.name.text <;>
      simp [h₁, h₂, Binding.standing]

/-- Parameters hide their names. -/
theorem ParamsLowered.names {pin : Nat} {ps : List Parameter} {b b' : Builder}
    (h : ParamsLowered pin ps b b') : b'.names = b.names.hide (ps.map (·.name.text)) := by
  induction h with
  | nil pin b => exact (Names.hide_nil _).symm
  | @cons pin p ps b b' type ht hs ih =>
    have hp : (b.addInput p.name.text type pin).names = b.names.hide [p.name.text] :=
      Builder.names_hide rfl rfl
    rw [ih, hp, ← Names.hide_append]
    rfl

/-- The nodes of a program's graph are those that the program asks for. -/
theorem ProgramLowered.adds {t : Builtins} {p : Program} {first : Ref} {g : Graph}
    (h : ProgramLowered t p first g) (hf : 1 ≤ first) :
    List.Forall₂ (Role.Describes t g) p.roles g.nodes := by
  obtain ⟨hg, he⟩ := h
  rename_i b₁ b₂
  have hr₁ : Steps t _ _ := hg.steps
  have hv₁ := hr₁.valid (Site.valid_start t hf)
  have hnodes₁ : b₁.graph.nodes = [] := by rw [hg.graph_eq]; rfl
  rcases hm : p.entry? with _ | m
  · rw [hm] at he
    cases he
    rw [Program.roles, hm]
    simp only [Option.elim_none, hnodes₁]
    exact .nil
  · rw [hm] at he
    cases he with
    | present hp hb =>
      rename_i b b' last
      have hr₂ : Steps t _ _ := hp.steps (by rw [hg.graph_eq]; rfl)
      have hv₂ := hr₂.valid hv₁
      have hnodes₂ : b.graph.nodes = [] := by rw [hp.graph_eq.1]; exact hnodes₁
      obtain ⟨⟨ns, hns, hall⟩, -⟩ := hb.adds hv₂ (by simp)
      have hnames : b.names = p.names m := by
        rw [hp.names, hg.names]
        rfl
      rw [hnodes₂, List.nil_append] at hns
      rw [Program.roles, hm, Option.elim_some, ← hnames]
      -- behind the body only the counter and the reports change
      exact hns ▸ hall.imp fun _ _ hn => ⟨hn.fits, hn.drives, hn.links⟩

/-! ## Links -/

/-- **Referential integrity.** In the graph of a program every connection has two ends, data comes
from parts that have a value and never from the write of an assignment. The nodes are those that the
program asks for, in the same order: a node that reads or writes a variable is linked to a record of
it, and every other node, whatever its opcode, is unlinked. If the table of builtins leaves the
opcodes below zero alone, the linked nodes are just those whose opcode says that they access a
variable. -/
theorem lower_intact {t : Builtins} {p : Program} {first : Ref} {g : Graph} (hf : 1 ≤ first)
    (h : p.lower t first = .ok g) :
    g.Intact t ∧
      List.Forall₂ (fun role n => role.Fits t n.opcode ∧ role.LinksTo g.globals n.linked) p.roles
        g.nodes ∧
      (t.Regular → ∀ n ∈ g.nodes,
        n.linked ≠ Ref.unlinked ↔
          n.opcode = Opcode.readGlobal ∨ n.opcode = Opcode.writeGlobal) := by
  have hg := ProgramLowered.of_lower h
  have hroles := (hg.adds hf).imp fun _ _ hn => And.intro hn.fits hn.links
  exact ⟨hg.intact hf, hroles, fun ht n hn => hg.linked_iff hf ht hn⟩

/-- A source with a read, a write under a condition, a call and a return. -/
def conditionalWrite : String :=
  "float x; def Main(bool c) \x7b if (c) \x7b x = Math.sin(x); \x7d return(x, c); \x7d"

/-- The graph of `conditionalWrite` is intact, and its linked nodes are its accesses. -/
theorem lower_intact_conditionalWrite :
    ∃ p g, Program.parse conditionalWrite = .ok p ∧ p.lower Builtins.standard 1 = .ok g ∧
      g.Intact Builtins.standard ∧
      p.roles = [.read, .function "Math" "sin" 1, .read, .select, .write, .read] ∧
      List.Forall₂ (fun role n => role.Fits Builtins.standard n.opcode ∧
        role.LinksTo g.globals n.linked) p.roles g.nodes ∧
      ∀ n ∈ g.nodes, n.linked ≠ Ref.unlinked ↔
        n.opcode = Opcode.readGlobal ∨ n.opcode = Opcode.writeGlobal := by
  obtain ⟨p, g, hp, hg⟩ := exists_lowered conditionalWrite Builtins.standard 1 (by decide +kernel)
  have hroles : (Program.parse conditionalWrite).toOption.map Program.roles =
      some [.read, .function "Math" "sin" 1, .read, .select, .write, .read] := by
    decide +kernel
  have hi := lower_intact (by decide) hg
  refine ⟨p, g, hp, hg, hi.1, ?_, hi.2.1, hi.2.2 Builtins.standard_regular⟩
  simpa [hp, Except.toOption] using hroles

end ScriptGraph
