import ScriptGraph.Compilation
import ScriptGraph.Proofs.Builtin.Lookup

/-!
# The order in which entries are added

The entries of an object come in no particular order, so a table that is extended by them should not
depend on one. It does not, unless the object lists one function in two spellings with different
opcodes: both are listed under one name, and the later one counts.

* `Builtins.addAll` — a table with entries added one after another, as `extend` does it;
* `Builtins.Clash` — two spellings of one function with different opcodes;
* `Builtins.get?_addAll_of_mem`, `Builtins.addAll_perm_iff` — the order does not count exactly if
  entries that are listed alike agree;
* `Options.compile_congr` — a compilation knows a table by its look-ups only;
* `Builtins.addAll_order` — all of this together.
-/

namespace ScriptGraph

/-! ## Tables with the same look-ups -/

namespace Lowering

variable {t t' : Builtins}

theorem binary_congr (h : ∀ key, t.get? key = t'.get? key) (op : BinaryOp) (left right : Wire) :
    binary t op left right = binary t' op left right := by
  have ho : t.operator? = t'.operator? := by
    funext symbol vector
    exact h _
  rw [binary, binary, ho]

theorem namedValue_congr (h : ∀ key, t.get? key = t'.get? key) (name : Name) :
    namedValue t name = namedValue t' name := by
  have hc : t.constant? = t'.constant? := by
    funext name
    exact h _
  rw [namedValue, namedValue, hc]

mutual

/-- An expression is lowered alike with two tables that have the same look-ups. -/
theorem expr_congr (h : ∀ key, t.get? key = t'.get? key) : ∀ e : Expr, expr t e = expr t' e
  | .number _ => by rw [expr, expr]
  | .var name => by rw [expr, expr, namedValue_congr h]
  | .neg inner => by rw [expr, expr, expr_congr h inner]
  | .not inner => by rw [expr, expr, expr_congr h inner]
  | .binary op left right => by
    rw [expr, expr, expr_congr h left, expr_congr h right]
    simp only [binary_congr h]
  | .call receiver member args => by
    have hm : t.member? receiver.text member.text = t'.member? receiver.text member.text := h _
    rw [expr, expr, hm]
    simp only [arguments_congr h _ _ args]
  | .construct type args => by
    rw [expr, expr]
    simp only [arguments_congr h _ _ args]

theorem arguments_congr (h : ∀ key, t.get? key = t'.get? key) (target : Ref) (pin : Nat) :
    ∀ args : List Expr, arguments t target pin args = arguments t' target pin args
  | [] => by rw [arguments, arguments]
  | arg :: args => by
    rw [arguments, arguments, expr_congr h arg, arguments_congr h target (pin + 1) args]

end

theorem declare_congr (h : ∀ key, t.get? key = t'.get? key) (d : Declaration) :
    declare t d = declare t' d := by
  rw [declare, declare]
  simp only [expr_congr h]

theorem assign_congr (h : ∀ key, t.get? key = t'.get? key) (target : Name) (op : AssignOp)
    (value : Expr) (condition : Option Wire) (last : Ref) :
    assign t target op value condition last = assign t' target op value condition last := by
  have hv : ∀ binding, assignedValue t binding op value = assignedValue t' binding op value := by
    intro binding
    rw [assignedValue, assignedValue, expr_congr h]
    simp only [binary_congr h]
  rw [assign, assign]
  simp only [hv]

theorem outputs_congr (h : ∀ key, t.get? key = t'.get? key) (index : Nat) (values : List Expr) :
    outputs t index values = outputs t' index values := by
  induction values generalizing index with
  | nil => rw [outputs, outputs]
  | cons value values ih => rw [outputs, outputs, expr_congr h, ih]

mutual

/-- So is a statement. -/
theorem stmt_congr (h : ∀ key, t.get? key = t'.get? key) (condition : Option Wire) (last : Ref) :
    ∀ s : Stmt, stmt t condition last s = stmt t' condition last s
  | .declare d span => by rw [stmt, stmt, declare_congr h]
  | .assign target op value span => by rw [stmt, stmt, assign_congr h]
  | .branch test thenBody none span => by
    rw [stmt, stmt, expr_congr h]
    simp only [body_congr h _ _ thenBody]
  | .branch test thenBody (some elseBody) span => by
    rw [stmt, stmt, expr_congr h]
    simp only [body_congr h _ _ thenBody, body_congr h _ _ elseBody]
  | .ret values span => by rw [stmt, stmt, outputs_congr h]
  | .call receiver member args span => by rw [stmt, stmt, expr_congr h]

theorem body_congr (h : ∀ key, t.get? key = t'.get? key) (condition : Option Wire) (last : Ref) :
    ∀ stmts : List Stmt, body t condition last stmts = body t' condition last stmts
  | [] => by rw [body, body]
  | s :: rest => by
    rw [body, body, stmt_congr h condition last s]
    simp only [body_congr h _ _ rest]

end

theorem program_congr (h : ∀ key, t.get? key = t'.get? key) (p : Program) :
    program t p = program t' p := by
  have hm : ∀ m, method t m = method t' m := by
    intro m
    rw [method, method]
    simp only [body_congr h]
  rw [program, program]
  simp only [hm]

end Lowering

/-- A compilation knows a table by its look-ups only. -/
theorem Options.compile_congr {t t' : Builtins} (h : ∀ key, t.get? key = t'.get? key) (first : Ref)
    (source : String) :
    Options.compile ⟨first, t⟩ source = Options.compile ⟨first, t'⟩ source := by
  have hl : ∀ p : Program, p.lower t first = p.lower t' first := by
    intro p
    rw [Program.lower, Program.lower, Lowering.program_congr h]
  rw [compile, compile]
  simp only [hl]

/-! ## Entries one after another -/

namespace Builtins

/-- The table with entries added one after another. -/
def addAll (b : Builtins) (entries : List (String × Opcode)) : Builtins :=
  entries.foldl (fun b e => b.add e.1 e.2) b

/-- Entries that are listed under one name have one opcode. -/
def Agreeing (entries : List (String × Opcode)) : Prop :=
  ∀ e ∈ entries, ∀ e' ∈ entries, normalize e.1 = normalize e'.1 → e.2 = e'.2

instance (entries : List (String × Opcode)) : Decidable (Agreeing entries) :=
  inferInstanceAs (Decidable (∀ e ∈ entries, ∀ e' ∈ entries,
    normalize e.1 = normalize e'.1 → e.2 = e'.2))

variable {b : Builtins} {entries order : List (String × Opcode)}

theorem addAll_append_singleton (b : Builtins) (entries : List (String × Opcode))
    (e : String × Opcode) : b.addAll (entries ++ [e]) = (b.addAll entries).add e.1 e.2 :=
  List.foldl_append

/-- A name under which nothing was added is looked up as before. -/
theorem get?_addAll_of_forall_ne {key : String} (h : ∀ e ∈ entries, normalize e.1 ≠ key) :
    (b.addAll entries).get? key = b.get? key := by
  induction entries using List.reverseRecOn with
  | nil => rfl
  | append_singleton entries e ih =>
    obtain ⟨hentries, he⟩ := List.forall_mem_append.mp h
    have hne : key ≠ normalize e.1 := fun hk => he e (List.mem_singleton_self e) hk.symm
    rw [addAll_append_singleton, get?_add, if_neg hne, ih hentries]

/-- Every entry is found if entries under one name have one opcode. -/
theorem get?_addAll_of_mem (h : Agreeing entries) {e : String × Opcode} (he : e ∈ entries) :
    (b.addAll entries).get? (normalize e.1) = some e.2 := by
  induction entries using List.reverseRecOn with
  | nil => cases he
  | append_singleton entries last ih =>
    rw [addAll_append_singleton, get?_add]
    by_cases hn : normalize e.1 = normalize last.1
    · rw [if_pos hn, h e he last (by simp) hn]
    · rw [if_neg hn]
      rcases List.mem_append.mp he with he | he
      · exact ih (fun x hx y hy => h x (List.mem_append_left _ hx) y (List.mem_append_left _ hy)) he
      · exact absurd (congrArg (fun e => normalize e.1) (List.mem_singleton.mp he)) hn

/-- The last entry is found whatever stands before it. -/
theorem get?_addAll_last (b : Builtins) (entries : List (String × Opcode)) (e : String × Opcode) :
    (b.addAll (entries ++ [e])).get? (normalize e.1) = some e.2 := by
  rw [addAll_append_singleton, get?_add, if_pos rfl]

/-- Any entry can be the last one. -/
theorem exists_perm_last {e : String × Opcode} (he : e ∈ entries) :
    ∃ rest, (rest ++ [e]).Perm entries :=
  ⟨entries.erase e, (List.perm_append_singleton e _).trans (List.perm_cons_erase he).symm⟩

/-- The order of entries does not count exactly if entries under one name have one opcode. -/
theorem addAll_perm_iff :
    (∀ order, order.Perm entries → ∀ key, (b.addAll order).get? key = (b.addAll entries).get? key) ↔
      Agreeing entries := by
  constructor
  · intro h e he e' he' hn
    -- put either of the two entries last
    obtain ⟨rest, hrest⟩ := exists_perm_last he
    obtain ⟨rest', hrest'⟩ := exists_perm_last he'
    have h₁ := h _ hrest (normalize e.1)
    have h₂ := h _ hrest' (normalize e.1)
    rw [get?_addAll_last] at h₁
    rw [hn, get?_addAll_last, ← hn, ← h₁] at h₂
    exact Option.some.inj h₂.symm
  · intro h order hp key
    have horder : Agreeing order := fun e he e' he' =>
      h e (hp.subset he) e' (hp.subset he')
    by_cases hk : ∃ e ∈ entries, normalize e.1 = key
    · obtain ⟨e, he, rfl⟩ := hk
      rw [get?_addAll_of_mem h he, get?_addAll_of_mem horder (hp.symm.subset he)]
    · have hne : ∀ e ∈ entries, normalize e.1 ≠ key := fun e he hn => hk ⟨e, he, hn⟩
      rw [get?_addAll_of_forall_ne hne,
        get?_addAll_of_forall_ne fun e he => hne e (hp.subset he)]

/-! ## Clashes -/

/-- Two entries list one function in two spellings, with different opcodes. -/
def Clash (e e' : String × Opcode) : Prop :=
  ∃ className member member', '.' ∉ className.toList ∧ e.1 = className ++ "." ++ member ∧
    e'.1 = className ++ "." ++ member' ∧ Text.lower member = Text.lower member' ∧ e.2 ≠ e'.2

/-- A name has no dot, or it has a part before the first one. -/
theorem dotted_or (name : String) :
    '.' ∉ name.toList ∨ ∃ className member, '.' ∉ className.toList ∧
      name = className ++ "." ++ member := by
  by_cases h : '.' ∈ name.toList
  · obtain ⟨before, behind, hsplit, hb⟩ := List.eq_append_cons_of_mem h
    refine .inr ⟨String.ofList before, String.ofList behind, by rwa [String.toList_ofList], ?_⟩
    rw [← String.toList_inj, hsplit]
    simp
  · exact .inl h

/-- The parts around the first dot of a name are determined by it. -/
theorem dotted_inj {className className' member member' : String} (h : '.' ∉ className.toList)
    (h' : '.' ∉ className'.toList) (he : className ++ "." ++ member = className' ++ "." ++ member') :
    className = className' ∧ member = member' := by
  have hlist : className.toList ++ '.' :: member.toList =
      className'.toList ++ '.' :: member'.toList := by
    simpa using congrArg String.toList he
  obtain ⟨htake, hdrop⟩ := span_dot h member.toList
  obtain ⟨htake', hdrop'⟩ := span_dot h' member'.toList
  rw [← hlist] at htake' hdrop'
  rw [htake] at htake'
  rw [hdrop] at hdrop'
  exact ⟨String.toList_inj.mp htake', String.toList_inj.mp (List.cons.inj hdrop').2⟩

/-- Two names are listed alike only if they are the same or spell one function. -/
theorem eq_or_dotted_of_normalize_eq {name name' : String} (h : normalize name = normalize name') :
    name = name' ∨ ∃ className member member', '.' ∉ className.toList ∧
      name = className ++ "." ++ member ∧ name' = className ++ "." ++ member' ∧
      Text.lower member = Text.lower member' := by
  rcases dotted_or name with hn | ⟨c, m, hc, rfl⟩ <;>
    rcases dotted_or name' with hn' | ⟨c', m', hc', rfl⟩
  · exact .inl (by rwa [normalize_of_not_mem hn, normalize_of_not_mem hn'] at h)
  · rw [normalize_of_not_mem hn, normalize_dotted hc'] at h
    exact absurd (by rw [h]; simp) hn
  · rw [normalize_of_not_mem hn', normalize_dotted hc] at h
    exact absurd (by rw [← h]; simp) hn'
  · rw [normalize_dotted hc, normalize_dotted hc'] at h
    obtain ⟨rfl, hm⟩ := dotted_inj hc hc' h
    exact .inr ⟨c, m, m', hc, rfl, rfl, hm⟩

/-- Entries under different names agree exactly if no two of them clash. -/
theorem agreeing_iff (hd : (entries.map Prod.fst).Nodup) :
    Agreeing entries ↔ ∀ e ∈ entries, ∀ e' ∈ entries, ¬Clash e e' := by
  constructor
  · rintro h e he e' he' ⟨className, member, member', hdot, hname, hname', hlower, hne⟩
    refine hne (h e he e' he' ?_)
    rw [hname, hname', normalize_dotted hdot, normalize_dotted hdot, hlower]
  · intro h e he e' he' hn
    by_contra hne
    rcases eq_or_dotted_of_normalize_eq hn with heq | ⟨c, m, m', hdot, hname, hname', hlower⟩
    · exact hne (congrArg Prod.snd (List.inj_on_of_nodup_map hd he he' heq))
    · exact h e he e' he' ⟨c, m, m', hdot, hname, hname', hlower, hne⟩

/-- `extend` adds the entries that it reads one after another. -/
theorem extend_eq_addAll (b : Builtins) {text : String} {read : List (String × Int)}
    (h : Json.parseEntries text = .ok read) :
    b.extend text = .ok
      (b.addAll (Dictionary.ofList read).entries, (Dictionary.ofList read).entries.length) := by
  rw [extend, h]
  rfl

/-- **The order of entries.** Take entries with different names, as the fields of an object are. A
text with these fields extends a table by them, one after another. The table that they make is the
same for every order in which they are added, exactly if no two of them list one function in two
spellings with different opcodes; then every source is compiled to the same result, whatever the
order was. -/
theorem addAll_order (b : Builtins) {entries : List (String × Opcode)}
    (hd : (entries.map Prod.fst).Nodup) :
    (∀ text read, Json.parseEntries text = .ok read →
      (Dictionary.ofList read).entries = entries →
        b.extend text = .ok (b.addAll entries, entries.length)) ∧
    ((∀ order, order.Perm entries →
        ∀ key, (b.addAll order).get? key = (b.addAll entries).get? key) ↔
      ∀ e ∈ entries, ∀ e' ∈ entries, ¬Clash e e') ∧
    ((∀ e ∈ entries, ∀ e' ∈ entries, ¬Clash e e') →
      ∀ order, order.Perm entries → ∀ first source,
        Options.compile ⟨first, b.addAll order⟩ source =
          Options.compile ⟨first, b.addAll entries⟩ source) := by
  refine ⟨fun text read hread heq => ?_, addAll_perm_iff.trans (agreeing_iff hd),
    fun h order hp first source => ?_⟩
  · rw [← heq]
    exact extend_eq_addAll b hread
  · exact Options.compile_congr (addAll_perm_iff.mpr ((agreeing_iff hd).mpr h) order hp) first source

/-- Two functions of one class and a constant. -/
def lerpEntries : List (String × Opcode) :=
  [("Math.Lerp", 200), ("jump_key", 201), ("Math.Unlerp", 202)]

/-- A text with these entries adds them all, and a program that uses them is compiled alike if they
come in another order. -/
theorem addAll_order_lerp :
    standard.extend "\x7b\"Math.Lerp\": 200, \"jump_key\": 201, \"Math.Unlerp\": 202\x7d" =
        .ok (standard.addAll lerpEntries, 3) ∧
      Options.compile ⟨1, standard.addAll lerpEntries.reverse⟩
          "def Main() \x7b return(Math.lerp(Jump_Key, Math.unlerp(1))); \x7d" =
        Options.compile ⟨1, standard.addAll lerpEntries⟩
          "def Main() \x7b return(Math.lerp(Jump_Key, Math.unlerp(1))); \x7d" := by
  have hd : (lerpEntries.map Prod.fst).Nodup := by decide
  have hclash : ∀ e ∈ lerpEntries, ∀ e' ∈ lerpEntries, ¬Clash e e' :=
    (agreeing_iff hd).mp (by decide +kernel)
  obtain ⟨hextend, -, hcompile⟩ := addAll_order standard hd
  exact ⟨hextend _ lerpEntries (by decide +kernel) (by decide +kernel),
    hcompile hclash _ (List.reverse_perm _) 1 _⟩

/-- Two spellings of one function, with different opcodes: the later one counts, and a program that
calls the function is compiled to a different node. -/
theorem spellings_ordered :
    ([("Math.Lerp", 200), ("Math.lerp", 201)].map Prod.fst).Nodup ∧
      [("Math.lerp", (201 : Opcode)), ("Math.Lerp", 200)].Perm
        [("Math.Lerp", 200), ("Math.lerp", 201)] ∧
      (standard.addAll [("Math.Lerp", 200), ("Math.lerp", 201)]).member? "Math" "lerp" = some 201 ∧
      (standard.addAll [("Math.lerp", 201), ("Math.Lerp", 200)]).member? "Math" "lerp" = some 200 ∧
      ((Options.compile ⟨1, standard.addAll [("Math.Lerp", 200), ("Math.lerp", 201)]⟩
        "def Main() \x7b return(Math.Lerp(1, 2)); \x7d").map fun c => c.graph.nodes.map (·.opcode)) =
        .ok [201] ∧
      ((Options.compile ⟨1, standard.addAll [("Math.lerp", 201), ("Math.Lerp", 200)]⟩
        "def Main() \x7b return(Math.Lerp(1, 2)); \x7d").map fun c => c.graph.nodes.map (·.opcode)) =
        .ok [200] := by
  decide +kernel

end Builtins

end ScriptGraph
