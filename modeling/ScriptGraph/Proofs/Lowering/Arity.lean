import ScriptGraph.Proofs.Lowering.Inputs
import ScriptGraph.Proofs.Parsing.RoundTrip

/-!
# What an opcode tells about inputs

The role of a node says how many inputs it has. A graph shows no roles, only opcodes, and a table of
builtins may well give one opcode to operations of different roles. The standard table does not: an
opcode of an access, an operator, a splitter or a choice belongs to that role alone.

A name in a program is looked up in lower case, so a constant is never taken for an operation that
the table lists under a capital letter; here it counts that a name which was read from a source is a
word.

* `Opcode.Takes` — the number of inputs that an opcode tells;
* `Role.Fits.takes` — a node of a role has an opcode that tells its number of inputs;
* `Program.named_roles` — the constants of a program that was read are words.
-/

namespace ScriptGraph

/-! ## Opcodes of the standard table -/

/-- What an opcode of the standard table tells about the number of inputs. -/
structure Opcode.Takes (opcode : Opcode) (count : Nat) : Prop where
  read : opcode = Opcode.readGlobal → count = 0
  one : opcode ∈ [Opcode.writeGlobal, Opcode.splitVector2, Opcode.negate, Opcode.not,
    Opcode.splitVector3] → count = 1
  two : (opcode = Opcode.and ∨ ∃ (op : BinaryOp) (vector : Bool),
    Builtins.standard.operator? op.symbol vector = some opcode) → count = 2
  three : opcode = Opcode.select → count = 3

/-- All operators. -/
def BinaryOp.all : List BinaryOp :=
  [.or, .and, .eq, .lt, .le, .gt, .ge, .add, .sub, .mul, .div, .mod, .pow]

theorem BinaryOp.mem_all (op : BinaryOp) : op ∈ BinaryOp.all := by
  cases op <;> decide

namespace Builtins

/-- The opcodes of operators. -/
def operators (t : Builtins) : List Opcode :=
  BinaryOp.all.flatMap fun op => [false, true].filterMap (t.operator? op.symbol)

theorem mem_operators {t : Builtins} {op : BinaryOp} {vector : Bool} {opcode : Opcode}
    (h : t.operator? op.symbol vector = some opcode) : opcode ∈ t.operators :=
  List.mem_flatMap.mpr ⟨op, op.mem_all, List.mem_filterMap.mpr ⟨vector, by simp, h⟩⟩

/-- An entry for a function or a constant, by its name: functions have a dot, and the names of
constants are in lower case. -/
def isCallable (name : String) : Bool :=
  name.toList.contains '.' || name.toList.head?.any fun c => c.isLower || c == '_'

/-- The opcodes of nodes that are neither calls nor operators, nor constants. -/
def own : List Opcode :=
  [Opcode.readGlobal, Opcode.writeGlobal, Opcode.splitVector2, Opcode.negate, Opcode.not,
    Opcode.splitVector3, Opcode.select]

/-- The operators of the standard table. -/
theorem standard_operators :
    standard.operators = [66, 65, 68, 48, 49, 50, 51, 5, 17, 60, 28, 14, 23, 45, 20, 58, 59] := by
  decide +kernel

/-- No operator of the standard table has one of those opcodes. -/
theorem standard_own : ∀ opcode ∈ standard.operators, opcode ∉ own := by
  rw [standard_operators]
  decide

/-- No function and no constant of the standard table has one of them, or that of an operator. -/
theorem standard_callable :
    ∀ e ∈ standard.entries, isCallable e.1 = true → e.2 ∉ own ∧ e.2 ∉ standard.operators := by
  rw [standard_operators]
  decide +kernel

theorem and_mem_operators : Opcode.and ∈ standard.operators := by
  rw [standard_operators]
  decide

theorem mem_entries {t : Builtins} {name : String} {opcode : Opcode}
    (h : t.get? name = some opcode) : (name, opcode) ∈ t.entries := by
  obtain ⟨l₁, l₂, he, -⟩ := List.lookup_eq_some_iff.mp h
  rw [he]
  simp

end Builtins

namespace Opcode

open Builtins

variable {opcode : Opcode} {count : Nat}

theorem takes_of_not_mem_own (h : opcode ∉ own) (hop : opcode ∈ standard.operators → count = 2) :
    Opcode.Takes opcode count := by
  refine ⟨fun he => absurd ?_ h, fun he => absurd ?_ h, ?_, fun he => absurd ?_ h⟩
  · simp [own, he]
  · exact List.mem_cons_of_mem _ (List.mem_append_left [select] he)
  · rintro (he | ⟨op, vector, ho⟩)
    · exact hop (he ▸ and_mem_operators)
    · exact hop (mem_operators ho)
  · simp [own, he]

theorem takes_of_mem_own (h : opcode ∈ own)
    (hcount : (opcode = readGlobal → count = 0) ∧
      (opcode ∈ [writeGlobal, splitVector2, negate, not, splitVector3] → count = 1) ∧
      (opcode = select → count = 3)) : Opcode.Takes opcode count := by
  refine ⟨hcount.1, hcount.2.1, ?_, hcount.2.2⟩
  rintro (he | ⟨op, vector, ho⟩)
  · exact absurd h (standard_own _ (he ▸ and_mem_operators))
  · exact absurd h (standard_own _ (mem_operators ho))

end Opcode

/-- The lower-case form of a word starts like the name of a constant. -/
theorem isCallable_lower {name : String} (h : isWord name.toList = true) :
    Builtins.isCallable (Text.lower name) = true := by
  have hall : ∀ n : Fin 128, Scanner.isWordStart (Char.ofNat n) = true →
      ((Char.ofNat n).toLower.isLower || (Char.ofNat n).toLower == '_') = true := by
    decide +kernel
  rcases hcs : name.toList with _ | ⟨c, cs⟩
  · rw [hcs] at h
    cases h
  · rw [hcs, isWord, Bool.and_eq_true] at h
    have hc : c.toNat < 128 := by
      have := Scanner.toNat_of_isWordStart h.1
      omega
    have hlower : Text.lowerBetween [] c cs = [c.toLower] := by
      have h₁ : c ≠ 'Σ' := by rintro rfl; exact absurd hc (by decide)
      have h₂ : c ≠ 'İ' := by rintro rfl; exact absurd hc (by decide)
      rw [Text.lowerBetween, if_neg h₁, if_neg h₂, Text.lowerChar, if_pos hc]
    have hfirst := hall ⟨c.toNat, hc⟩
    rw [Char.ofNat_toNat] at hfirst
    have hhead : (Text.lower name).toList.head? = some c.toLower := by
      rw [Text.lower, hcs, Text.lowerAfter, hlower]
      simp
    rw [Builtins.isCallable, hhead, Option.any_some, hfirst h.1, Bool.or_true]

/-- The constructors of vectors have opcodes of their own. -/
theorem constructor?_free {type : String} {opcode : Opcode} {valueType : ValueType}
    (h : constructor? type = some (opcode, valueType)) :
    opcode ∉ Builtins.own ∧ opcode ∉ Builtins.standard.operators := by
  rw [Builtins.standard_operators]
  rw [constructor?] at h
  split at h
  · cases h
    decide
  · split at h
    · cases h
      decide
    · cases h

/-- The name of a constant is a word. -/
def Role.IsNamed : Role → Prop
  | .constant name => isWord name.toList = true
  | _ => True

/-- **The opcode tells the number of inputs.** With the standard table, nodes of different roles have
different opcodes, unless their roles have equally many inputs or are calls. -/
theorem Role.Fits.takes {role : Role} {opcode : Opcode} (h : role.Fits Builtins.standard opcode)
    (hn : role.IsNamed) : Opcode.Takes opcode role.arity := by
  cases role with
  | read => exact h ▸ Opcode.takes_of_mem_own (by decide) (by decide)
  | write => exact h ▸ Opcode.takes_of_mem_own (by decide) (by decide)
  | constant name =>
    obtain ⟨hown, hop⟩ :=
      Builtins.standard_callable _ (Builtins.mem_entries h) (isCallable_lower hn)
    exact Opcode.takes_of_not_mem_own hown fun ho => absurd ho hop
  | negate => exact h ▸ Opcode.takes_of_mem_own (by decide) (by decide)
  | not => exact h ▸ Opcode.takes_of_mem_own (by decide) (by decide)
  | operator op =>
    obtain ⟨vector, ho⟩ := h
    exact Opcode.takes_of_not_mem_own (Builtins.standard_own _ (Builtins.mem_operators ho))
      fun _ => rfl
  | split =>
    rcases h with rfl | rfl
    · exact Opcode.takes_of_mem_own (by decide) (by decide)
    · exact Opcode.takes_of_mem_own (by decide) (by decide)
  | and =>
    exact h ▸ Opcode.takes_of_not_mem_own (Builtins.standard_own _ Builtins.and_mem_operators)
      fun _ => rfl
  | select => exact h ▸ Opcode.takes_of_mem_own (by decide) (by decide)
  | function receiver member count =>
    obtain ⟨hown, hop⟩ := Builtins.standard_callable _ (Builtins.mem_entries h)
      (by simp [Builtins.isCallable])
    exact Opcode.takes_of_not_mem_own hown fun ho => absurd ho hop
  | construct type count =>
    obtain ⟨valueType, ho⟩ := h
    obtain ⟨hown, hop⟩ := constructor?_free ho
    exact Opcode.takes_of_not_mem_own hown fun ho => absurd ho hop

/-! ## Names of constants -/

/-- The names of the constants among some roles are words. -/
def Role.AllNamed (roles : List Role) : Prop :=
  ∀ role ∈ roles, role.IsNamed

@[simp]
theorem Role.allNamed_append {roles roles' : List Role} :
    AllNamed (roles ++ roles') ↔ AllNamed roles ∧ AllNamed roles' :=
  List.forall_mem_append

@[simp]
theorem Role.allNamed_cons {role : Role} {roles : List Role} :
    AllNamed (role :: roles) ↔ role.IsNamed ∧ AllNamed roles :=
  List.forall_mem_cons

@[simp]
theorem Role.allNamed_nil : AllNamed [] :=
  nofun

@[simp]
theorem Names.named_reads (names : Names) (name : String) : Role.AllNamed (names.reads name) := by
  rw [Names.reads]
  rcases names name with _ | _ | _ <;> simp [Standing.reads, Role.IsNamed]

@[simp]
theorem Names.named_writes (names : Names) (name : String) : Role.AllNamed (names.writes name) := by
  rw [Names.writes]
  rcases names name with _ | _ | _ <;> simp [Standing.writes, Role.IsNamed]

mutual

/-- The constants of an expression that can be written are words. -/
theorem Expr.named_roles (names : Names) :
    ∀ {e : Expr}, e.Writable → Role.AllNamed (e.roles names)
  | .number value, _ => by simp [Expr.roles]
  | .var name, h => by
    rw [Expr.roles]
    split
    · simp
    · simpa [Role.IsNamed] using (Bool.and_eq_true_iff.mp h).1
  | .neg inner, h => by
    simpa [Expr.roles, Role.IsNamed] using Expr.named_roles names (e := inner) h
  | .not inner, h => by
    simpa [Expr.roles, Role.IsNamed] using Expr.named_roles names (e := inner) h
  | .binary op left right, h => by
    have hl := Expr.named_roles names h.1
    have hr := Expr.named_roles names h.2
    simpa [Expr.roles, Role.IsNamed] using ⟨hl, hr⟩
  | .call receiver member args, h => by
    have ha := Expr.named_argsRoles names h.2.2
    rw [Expr.roles]
    split
    · simp [Role.IsNamed]
    · simpa [Role.IsNamed] using ha
  | .construct type args, h => by
    simpa [Expr.roles, Role.IsNamed] using Expr.named_argsRoles names h.2

theorem Expr.named_argsRoles (names : Names) :
    ∀ {args : List Expr}, Expr.ArgsWritable args → Role.AllNamed (Expr.argsRoles names args)
  | [], _ => by simp [Expr.argsRoles]
  | arg :: args, h => by
    have hf := Expr.named_roles names h.1
    have hs := Expr.named_argsRoles names h.2
    simpa [Expr.argsRoles] using ⟨hf, hs⟩

end

theorem Stmt.named_joint (conditional : Bool) : Role.AllNamed (Stmt.joint conditional) := by
  cases conditional <;> simp [Stmt.joint, Role.IsNamed]

theorem Stmt.named_assignRoles (conditional : Bool) (names : Names) (target : String)
    (op : Option BinaryOp) {value : Expr} (h : Role.AllNamed (value.roles names)) :
    Role.AllNamed (Stmt.assignRoles conditional names target op value) := by
  cases op <;> cases conditional <;> simp [Stmt.assignRoles, Role.IsNamed, h]

mutual

/-- The constants of a statement that can be written are words. -/
theorem Stmt.named_roles :
    ∀ {s : Stmt} (conditional : Bool) (names : Names), s.Writable →
      Role.AllNamed (s.roles conditional names)
  | .declare d span, conditional, names, h => by
    rw [Stmt.roles]
    rcases hi : d.init with _ | init
    · simp
    · exact Expr.named_roles names (h.2.2.1 init hi)
  | .assign target op value span, conditional, names, h => by
    rw [Stmt.roles]
    refine Stmt.named_assignRoles conditional names _ _ ?_
    obtain ⟨-, hv⟩ := h
    split at hv
    · rw [hv]
      simp [Expr.roles]
    · exact Expr.named_roles names hv
  | .branch test thenBody none span, conditional, names, h => by
    have he := Expr.named_roles names h.1
    have ht := Stmt.named_bodyRoles true names h.2.1
    simpa [Stmt.roles, Stmt.named_joint] using ⟨he, ht⟩
  | .branch test thenBody (some elseBody) span, conditional, names, h => by
    have he := Expr.named_roles names h.1
    have ht := Stmt.named_bodyRoles true names h.2.1
    have hf := Stmt.named_bodyRoles true (names.hide (Stmt.bodyDeclared thenBody)) h.2.2
    simpa [Stmt.roles, Stmt.named_joint, Role.IsNamed] using ⟨he, ht, hf⟩
  | .ret values span, conditional, names, h => Expr.named_argsRoles names h
  | .call receiver member args span, conditional, names, h =>
    Expr.named_roles names (e := .call receiver member args) h

theorem Stmt.named_bodyRoles :
    ∀ {body : List Stmt} (conditional : Bool) (names : Names), Stmt.BodyWritable body →
      Role.AllNamed (Stmt.bodyRoles conditional names body)
  | [], conditional, names, _ => Role.allNamed_nil
  | s :: rest, conditional, names, h => by
    have hs := Stmt.named_roles conditional names h.1
    have hr := Stmt.named_bodyRoles conditional (names.hide s.declared) h.2
    simpa [Stmt.bodyRoles] using ⟨hs, hr⟩

end

theorem Program.named_roles {p : Program} (h : p.Writable) : Role.AllNamed p.roles := by
  rw [Program.roles]
  rcases hm : p.entry? with _ | m
  · exact Role.allNamed_nil
  · have hmem : m ∈ p.methods := List.mem_of_find?_eq_some hm
    obtain ⟨item, hitem, he⟩ := List.mem_filterMap.mp hmem
    cases item with
    | globalVar d => cases he
    | method m' =>
      obtain rfl := Option.some.inj he
      exact Stmt.named_bodyRoles false _ (h.1 _ hitem).2.2

/-! ## Programs -/

/-- **Every input is connected once.** The nodes of the graph of a program that was read from a source
are those that the program asks for, in the same order; each performs an operation of its role and
has as many inputs as the role says: an access to a variable, a constant, an operator, a splitter and
a choice always the same number, a function and a vector one for each argument. The inputs are
connected once each, in increasing order, so that they are found in this order. With the standard
table the opcode alone tells the number, unless it is that of a function or a vector. -/
theorem lower_drives_inputs {source : String} {p : Program} {first : Ref} {g : Graph}
    (hp : Program.parse source = .ok p) (hf : 1 ≤ first)
    (h : p.lower Builtins.standard first = .ok g) :
    List.Forall₂ (fun role n => role.Fits Builtins.standard n.opcode ∧ g.Drives n.ref role.arity)
        p.roles g.nodes ∧
      ∀ n ∈ g.nodes, ∃ count, g.Drives n.ref count ∧ g.dataInputs n.ref = g.feedsOf n.ref ∧
        (g.dataInputs n.ref).length = count ∧ Opcode.Takes n.opcode count := by
  have hall := (ProgramLowered.of_lower h).adds hf
  have hnamed := Program.named_roles (Program.writable_of_parse hp)
  refine ⟨hall.imp fun _ _ hn => ⟨hn.fits, hn.drives⟩, fun n hn => ?_⟩
  obtain ⟨i, hi, rfl⟩ := List.getElem_of_mem hn
  have hlen := hall.length_eq
  have hi' : i < p.roles.length := hlen ▸ hi
  obtain ⟨hfits, hdrives, -⟩ := hall.get hi' hi
  simp only [List.get_eq_getElem] at hfits hdrives
  have hinputs := hdrives.dataInputs_eq
  refine ⟨_, hdrives, hinputs, ?_, hfits.takes (hnamed _ (List.getElem_mem hi'))⟩
  rw [hinputs]
  simpa using congrArg List.length hdrives

/-- A source with calls inside of calls, an operator that changes a global variable under a condition, a
component and a constant. -/
def mixedNodes : String :=
  "Vector3 v; float x; def Main(bool c) \x7b if (c) \x7b " ++
    "x += Math.clamp(v.X(), -Math.abs(x), lt ** 2); \x7d else \x7b " ++
    "v = new Vector3(x, 1, x); \x7d \x7d"

/-- The nodes of `mixedNodes` and the numbers of their inputs. -/
theorem lower_drives_inputs_mixedNodes :
    ∃ p g, Program.parse mixedNodes = .ok p ∧ p.lower Builtins.standard 1 = .ok g ∧
      (p.roles.map Role.arity = [0, 0, 1, 0, 1, 1, 0, 2, 3, 2, 3, 1, 1, 0, 0, 3, 0, 3, 1]) ∧
      List.Forall₂ (fun role n => role.Fits Builtins.standard n.opcode ∧ g.Drives n.ref role.arity)
        p.roles g.nodes ∧
      ∀ n ∈ g.nodes, ∃ count, g.Drives n.ref count ∧ g.dataInputs n.ref = g.feedsOf n.ref ∧
        (g.dataInputs n.ref).length = count ∧ Opcode.Takes n.opcode count := by
  obtain ⟨p, g, hp, hg⟩ := exists_lowered mixedNodes Builtins.standard 1 (by decide +kernel)
  refine ⟨p, g, hp, hg, ?_, lower_drives_inputs hp (by decide) hg⟩
  have hroles : (Program.parse mixedNodes).toOption.map (fun p => p.roles.map Role.arity) =
      some [0, 0, 1, 0, 1, 1, 0, 2, 3, 2, 3, 1, 1, 0, 0, 3, 0, 3, 1] := by
    decide +kernel
  simpa [hp, Except.toOption] using hroles

end ScriptGraph
