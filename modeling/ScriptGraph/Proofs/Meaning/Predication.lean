import Mathlib.Logic.Function.Basic
import ScriptGraph.Proofs.Meaning.Interpreter
import ScriptGraph.Proofs.Tree.Names

/-!
# Predicated execution

A graph has no branches: both bodies of a choice are there, and what an assignment leaves depends on
a condition. *Predicated execution* runs a statement in just this way, under a condition that may be
false: expressions are evaluated and locals declared all the same, but an assignment keeps the old
value where the condition is false.

* `View` — what the names mean at a point of a graph: the store, and the values of locals;
* `Stmt.predicated` — predicated execution of a statement;
* `View.Agrees` — a view and a frame say the same of all names but the stale ones;
* `Stmt.idle` — under a false condition nothing changes but declared names;
* `Stmt.active` — under a true condition a scoped statement does what its meaning says.
-/

namespace ScriptGraph

variable {V : Type} {rt : Runtime V} {t : Builtins}

/-! ## Names that are used -/

mutual

/-- The value of an expression depends on the names that it uses only. -/
theorem Expr.eval_congr {look look' : String → Option V} :
    ∀ (e : Expr), (∀ name ∈ e.uses, look name = look' name) →
      e.eval rt t look = e.eval rt t look'
  | .number value, _ => by rw [Expr.eval, Expr.eval]
  | .var name, h => by
    rw [Expr.eval, Expr.eval, h name.text (List.mem_singleton_self _)]
  | .neg inner, h => by rw [Expr.eval, Expr.eval, Expr.eval_congr inner h]
  | .not inner, h => by rw [Expr.eval, Expr.eval, Expr.eval_congr inner h]
  | .binary op left right, h => by
    rw [Expr.eval, Expr.eval,
      Expr.eval_congr left fun name hn => h name (List.mem_append_left _ hn),
      Expr.eval_congr right fun name hn => h name (List.mem_append_right _ hn)]
  | .call receiver member args, h => by
    rw [Expr.eval, Expr.eval, h receiver.text (List.mem_cons_self ..),
      Expr.evalArgs_congr args fun name hn => h name (List.mem_cons_of_mem _ hn)]
  | .construct type args, h => by
    rw [Expr.eval, Expr.eval, Expr.evalArgs_congr args h]

theorem Expr.evalArgs_congr {look look' : String → Option V} :
    ∀ (es : List Expr), (∀ name ∈ Expr.argsUses es, look name = look' name) →
      Expr.evalArgs rt t look es = Expr.evalArgs rt t look' es
  | [], _ => by rw [Expr.evalArgs, Expr.evalArgs]
  | e :: es, h => by
    rw [Expr.evalArgs, Expr.evalArgs,
      Expr.eval_congr e fun name hn => h name (List.mem_append_left _ hn),
      Expr.evalArgs_congr es fun name hn => h name (List.mem_append_right _ hn)]

end

/-- An expression that uses no stale name has its value from the other names. -/
theorem Expr.eval_avoids {look look' : String → Option V} {stale : List String} {e : Expr}
    (he : e.avoids stale = true) (h : ∀ name, name ∉ stale → look name = look' name) :
    e.eval rt t look = e.eval rt t look' := by
  refine Expr.eval_congr e fun name hn => h name ?_
  have hall := List.all_eq_true.mp he name hn
  simpa using hall

/-- So do expressions one after another. -/
theorem Expr.evalArgs_avoids {look look' : String → Option V} {stale : List String}
    {es : List Expr} (hes : es.all (Expr.avoids stale) = true)
    (h : ∀ name, name ∉ stale → look name = look' name) :
    Expr.evalArgs rt t look es = Expr.evalArgs rt t look' es := by
  induction es with
  | nil => rw [Expr.evalArgs, Expr.evalArgs]
  | cons e es ih =>
    rw [List.all_cons, Bool.and_eq_true] at hes
    rw [Expr.evalArgs, Expr.evalArgs, Expr.eval_avoids hes.1 h, ih hes.2]

/-! ## Views -/

/-- What the names mean at a point of a graph. -/
@[ext]
structure View (V : Type) where
  /-- the values of the variables -/
  store : Ref → V
  /-- the values of parameters and locals -/
  local? : String → Option V

namespace View

variable (refOf : String → Option Ref)

/-- The value of a name, where `refOf` says which variables there are. -/
def look (s : View V) (name : String) : Option V :=
  (s.local? name).or ((refOf name).map s.store)

/-- A local is declared. -/
def bind (s : View V) (name : String) (v : V) : View V :=
  { s with local? := Function.update s.local? name (some v) }

/-- A variable takes a new value. -/
def write (s : View V) (ref : Ref) (v : V) : View V :=
  { s with store := Function.update s.store ref v }

/-- A name takes a new value: the local if there is one, else the variable. -/
def assign (s : View V) (name : String) (v : V) : View V :=
  match s.local? name with
  | some _ => s.bind name v
  | none =>
    match refOf name with
    | some ref => s.write ref v
    | none => s

variable {refOf} {s : View V}

theorem bind_self (s : View V) (name : String) (v : V) : (s.bind name v).local? name = some v :=
  Function.update_self ..

theorem bind_of_ne {name other : String} (h : other ≠ name) (s : View V) (v : V) :
    (s.bind name v).local? other = s.local? other :=
  Function.update_of_ne h ..

theorem write_self (s : View V) (ref : Ref) (v : V) : (s.write ref v).store ref = v :=
  Function.update_self ..

theorem write_of_ne {ref other : Ref} (h : other ≠ ref) (s : View V) (v : V) :
    (s.write ref v).store other = s.store other :=
  Function.update_of_ne h ..

/-- A name that takes its old value changes nothing. -/
theorem assign_self {name : String} {v : V} (h : s.look refOf name = some v) :
    s.assign refOf name v = s := by
  rw [look] at h
  rw [assign]
  rcases hl : s.local? name with _ | old
  · rw [hl, Option.none_or] at h
    rcases hr : refOf name with _ | ref
    · rfl
    · rw [hr, Option.map_some] at h
      obtain rfl := Option.some.inj h
      simp only [write, Function.update_eq_self]
  · rw [hl, Option.some_or] at h
    rw [h] at hl
    simp only [bind, ← hl, Function.update_eq_self]

end View

section

variable (rt t) (refOf : String → Option Ref)

mutual

/-- Runs a statement under a condition. There is no return to be run under a condition. -/
def Stmt.predicated (condition : Bool) (s : View V) : Stmt → Option (View V)
  | .declare d _ =>
    match d.init with
    | none => some (s.bind d.name.text (rt.number (.ofInt 0)))
    | some init => do
      let v ← init.eval rt t (s.look refOf)
      return s.bind d.name.text v
  | .assign target op value _ => do
    let old ← s.look refOf target.text
    let v ← value.eval rt t (s.look refOf)
    let new ← op.combine rt t old v
    return s.assign refOf target.text (if condition then new else old)
  | .branch test thenBody elseBody _ => do
    let v ← test.eval rt t (s.look refOf)
    let s' ← Stmt.bodyPredicated (condition && rt.truth v) s thenBody
    match elseBody with
    | none => return s'
    | some elseBody => Stmt.bodyPredicated (condition && !rt.truth v) s' elseBody
  | .ret _ _ => none
  | .call receiver member args _ => do
    let _ ← (Expr.call receiver member args).eval rt t (s.look refOf)
    return s

/-- Runs statements one after another under a condition. -/
def Stmt.bodyPredicated (condition : Bool) (s : View V) : List Stmt → Option (View V)
  | [] => some s
  | stmt :: rest => do
    let s' ← stmt.predicated condition s
    Stmt.bodyPredicated condition s' rest

end

end

/-! ## Under a false condition -/

/-- Nothing has changed but the values of some locals. -/
structure View.SameBut (names : List String) (s s' : View V) : Prop where
  store : s'.store = s.store
  local? : ∀ name, name ∉ names → s'.local? name = s.local? name

namespace View.SameBut

variable {names names' : List String} {s s' s'' : View V}

theorem refl (names : List String) (s : View V) : SameBut names s s :=
  ⟨rfl, fun _ _ => rfl⟩

theorem trans (h : SameBut names s s') (h' : SameBut names' s' s'') :
    SameBut (names ++ names') s s'' := by
  refine ⟨h'.store.trans h.store, fun name hn => ?_⟩
  have hn := List.mem_append.not.mp hn
  rw [not_or] at hn
  rw [h'.local? name hn.2, h.local? name hn.1]

/-- A declaration concerns its name only. -/
theorem bind (s : View V) (name : String) (v : V) : SameBut [name] s (s.bind name v) :=
  ⟨rfl, fun _ hn => View.bind_of_ne (fun he => hn (List.mem_singleton.mpr he)) s v⟩

end View.SameBut

section

variable {refOf : String → Option Ref}

mutual

/-- **Idle statements.** Under a false condition a statement changes nothing but the names that it
declares. -/
theorem Stmt.idle : ∀ (stmt : Stmt) {s s' : View V},
    stmt.predicated rt t refOf false s = some s' → View.SameBut stmt.declared s s'
  | .declare d span, s, s', h => by
    rw [Stmt.predicated] at h
    rcases hi : d.init with _ | init
    · rw [hi] at h
      cases h
      exact .bind s _ _
    · rw [hi] at h
      obtain ⟨v, -, h⟩ := Option.bind_eq_some_iff.mp h
      cases h
      exact .bind s _ _
  | .assign target op value span, s, s', h => by
    rw [Stmt.predicated] at h
    obtain ⟨old, hold, h⟩ := Option.bind_eq_some_iff.mp h
    obtain ⟨v, -, h⟩ := Option.bind_eq_some_iff.mp h
    obtain ⟨new, -, h⟩ := Option.bind_eq_some_iff.mp h
    cases h
    rw [if_neg Bool.false_ne_true, View.assign_self hold]
    exact .refl _ s
  | .branch test thenBody none span, s, s', h => by
    rw [Stmt.predicated] at h
    obtain ⟨v, -, h⟩ := Option.bind_eq_some_iff.mp h
    obtain ⟨s₁, h₁, h⟩ := Option.bind_eq_some_iff.mp h
    cases h
    rw [Bool.false_and] at h₁
    exact Stmt.bodyIdle thenBody h₁
  | .branch test thenBody (some elseBody) span, s, s', h => by
    rw [Stmt.predicated] at h
    obtain ⟨v, -, h⟩ := Option.bind_eq_some_iff.mp h
    obtain ⟨s₁, h₁, h₂⟩ := Option.bind_eq_some_iff.mp h
    rw [Bool.false_and] at h₁ h₂
    exact (Stmt.bodyIdle thenBody h₁).trans (Stmt.bodyIdle elseBody h₂)
  | .ret values span, s, s', h => by
    rw [Stmt.predicated] at h
    cases h
  | .call receiver member args span, s, s', h => by
    rw [Stmt.predicated] at h
    obtain ⟨v, -, h⟩ := Option.bind_eq_some_iff.mp h
    cases h
    exact .refl _ s

/-- So do statements one after another. -/
theorem Stmt.bodyIdle : ∀ (body : List Stmt) {s s' : View V},
    Stmt.bodyPredicated rt t refOf false s body = some s' →
      View.SameBut (Stmt.bodyDeclared body) s s'
  | [], s, s', h => by
    rw [Stmt.bodyPredicated] at h
    cases h
    exact .refl _ s
  | stmt :: rest, s, s', h => by
    rw [Stmt.bodyPredicated] at h
    obtain ⟨s₁, h₁, h₂⟩ := Option.bind_eq_some_iff.mp h
    exact (Stmt.idle stmt h₁).trans (Stmt.bodyIdle rest h₂)

end

/-! ## Under a true condition -/

/-- A view and a frame say the same: of all variables, and of the locals that are not stale. -/
structure View.Agrees (refOf : String → Option Ref) (stale : List String) (s : View V)
    (f : Frame V) : Prop where
  globals : ∀ name, f.globals.get? name = (refOf name).map s.store
  locals : ∀ name, name ∉ stale → f.locals.get? name = s.local? name

namespace View.Agrees

variable {stale stale' : List String} {s s' : View V} {f : Frame V}

theorem look_eq (h : s.Agrees refOf stale f) {name : String} (hn : name ∉ stale) :
    s.look refOf name = f.get? name := by
  rw [View.look, Frame.get?, h.locals name hn, h.globals name]

/-- An expression that uses no stale name has one value. -/
theorem eval_eq (h : s.Agrees refOf stale f) {e : Expr} (he : e.avoids stale = true) :
    e.eval rt t f.get? = e.eval rt t (s.look refOf) :=
  Expr.eval_avoids he fun _ hn => (h.look_eq hn).symm

theorem evalArgs_eq (h : s.Agrees refOf stale f) {es : List Expr}
    (hes : es.all (Expr.avoids stale) = true) :
    Expr.evalArgs rt t f.get? es = Expr.evalArgs rt t (s.look refOf) es :=
  Expr.evalArgs_avoids hes fun _ hn => (h.look_eq hn).symm

theorem mono (h : s.Agrees refOf stale f) (hs : ∀ name ∈ stale, name ∈ stale') :
    s.Agrees refOf stale' f :=
  ⟨h.globals, fun name hn => h.locals name fun hm => hn (hs name hm)⟩

/-- What was changed behind the frame's back is stale. -/
theorem sameBut {names : List String} (h : s.Agrees refOf stale f) (hs : SameBut names s s') :
    s'.Agrees refOf (stale ++ names) f := by
  refine ⟨fun name => by rw [hs.store, h.globals name], fun name hn => ?_⟩
  have hn := List.mem_append.not.mp hn
  rw [not_or] at hn
  rw [hs.local? name hn.2, h.locals name hn.1]

/-- A declaration refreshes its name. -/
theorem declare (h : s.Agrees refOf stale f) (name : String) (v : V) :
    (s.bind name v).Agrees refOf (stale.filter (· ≠ name)) (f.declare name v) := by
  refine ⟨h.globals, fun other ho => ?_⟩
  rw [Frame.declare]
  by_cases he : other = name
  · rw [he, Dictionary.get?_insert_self, View.bind_self]
  · have hn : other ∉ stale := by
      intro hm
      exact ho (List.mem_filter.mpr ⟨hm, by simpa using he⟩)
    rw [Dictionary.get?_insert_of_ne he, View.bind_of_ne he, h.locals other hn]

/-- An assignment to a name that is not stale. Two names never mean one variable. -/
theorem assign (h : s.Agrees refOf stale f)
    (hinj : ∀ name name' ref, refOf name = some ref → refOf name' = some ref → name = name')
    {name : String} (hn : name ∉ stale) {old : V} (hold : s.look refOf name = some old) (v : V) :
    (s.assign refOf name v).Agrees refOf stale (f.set name v) := by
  rw [View.assign, Frame.set, h.locals name hn]
  rcases hl : s.local? name with _ | current
  · rw [View.look, hl, Option.none_or] at hold
    obtain ⟨ref, hr, -⟩ := Option.map_eq_some_iff.mp hold
    simp only [hr]
    -- the name means a variable: its value changes, and that of no other name
    refine ⟨fun other => ?_, h.locals⟩
    by_cases he : other = name
    · rw [he, Dictionary.get?_insert_self, hr, Option.map_some, View.write_self]
    · rw [Dictionary.get?_insert_of_ne he, h.globals other]
      rcases ho : refOf other with _ | ref'
      · rfl
      · have hne : ref' ≠ ref := by
          intro hrr
          exact he (hinj other name ref (hrr ▸ ho) hr)
        rw [Option.map_some, Option.map_some, View.write_of_ne hne]
  · refine (h.declare name v).mono fun other ho => ?_
    exact (List.mem_filter.mp ho).1

end View.Agrees

mutual

/-- **Active statements.** Under a true condition a statement that uses no stale name does what its
meaning says, and it does not return. -/
theorem Stmt.active
    (hinj : ∀ name name' ref, refOf name = some ref → refOf name' = some ref → name = name') :
    ∀ (stmt : Stmt) {s s' : View V} {f : Frame V} {stale : List String},
    stmt.predicated rt t refOf true s = some s' → s.Agrees refOf stale f →
      stmt.isScoped stale = true →
        ∃ f', stmt.exec rt t f = some (f', none) ∧ s'.Agrees refOf (stmt.staleAfter stale) f'
  | .declare d span, s, s', f, stale, h, ha, hs => by
    rw [Stmt.isScoped] at hs
    rw [Stmt.predicated] at h
    rw [Stmt.exec]
    rcases hi : d.init with _ | init
    · rw [hi] at h
      cases h
      exact ⟨_, rfl, ha.declare _ _⟩
    · rw [hi] at h hs
      obtain ⟨v, hv, h⟩ := Option.bind_eq_some_iff.mp h
      cases h
      refine ⟨f.declare d.name.text v, ?_, ha.declare _ _⟩
      rw [← ha.eval_eq hs] at hv
      simp only [hv]
      rfl
  | .assign target op value span, s, s', f, stale, h, ha, hs => by
    rw [Stmt.isScoped, Bool.and_eq_true] at hs
    obtain ⟨htarget, hvalue⟩ := hs
    have htarget : target.text ∉ stale := by simpa using htarget
    rw [Stmt.predicated] at h
    obtain ⟨old, hold, h⟩ := Option.bind_eq_some_iff.mp h
    obtain ⟨v, hv, h⟩ := Option.bind_eq_some_iff.mp h
    obtain ⟨new, hnew, h⟩ := Option.bind_eq_some_iff.mp h
    cases h
    rw [if_pos rfl]
    refine ⟨f.set target.text new, ?_, ha.assign hinj htarget hold new⟩
    rw [← ha.eval_eq hvalue] at hv
    rw [ha.look_eq htarget] at hold
    rw [Stmt.exec, hold, hv]
    simp only [Option.bind_eq_bind, Option.bind_some, hnew]
    rfl
  | .branch test thenBody none span, s, s', f, stale, h, ha, hs => by
    rw [Stmt.isScoped, Bool.and_eq_true] at hs
    obtain ⟨htest, hthen⟩ := hs
    rw [Stmt.predicated] at h
    obtain ⟨v, hv, h⟩ := Option.bind_eq_some_iff.mp h
    obtain ⟨s₁, h₁, h⟩ := Option.bind_eq_some_iff.mp h
    cases h
    rw [Bool.true_and] at h₁
    rw [← ha.eval_eq htest] at hv
    rw [Stmt.exec, hv]
    simp only [Option.bind_eq_bind, Option.bind_some]
    rcases hk : rt.truth v with _ | _
    · rw [hk] at h₁
      exact ⟨f, by simp, ha.sameBut (Stmt.bodyIdle thenBody h₁)⟩
    · rw [hk] at h₁
      obtain ⟨f₁, hf₁, ha₁⟩ := Stmt.bodyActive hinj thenBody h₁ ha hthen
      exact ⟨f₁, by simpa using hf₁, ha₁.mono fun name hn => Stmt.bodyStaleAfter_subset hn⟩
  | .branch test thenBody (some elseBody) span, s, s', f, stale, h, ha, hs => by
    rw [Stmt.isScoped, Bool.and_eq_true, Bool.and_eq_true] at hs
    obtain ⟨⟨htest, hthen⟩, helse⟩ := hs
    rw [Stmt.predicated] at h
    obtain ⟨v, hv, h⟩ := Option.bind_eq_some_iff.mp h
    obtain ⟨s₁, h₁, h₂⟩ := Option.bind_eq_some_iff.mp h
    rw [Bool.true_and] at h₁ h₂
    rw [← ha.eval_eq htest] at hv
    rw [Stmt.exec, hv]
    simp only [Option.bind_eq_bind, Option.bind_some]
    rcases hk : rt.truth v with _ | _
    · -- the first body is idle, so what it declares is stale in the second
      rw [hk] at h₁ h₂
      have ha₁ := ha.sameBut (Stmt.bodyIdle thenBody h₁)
      obtain ⟨f₂, hf₂, ha₂⟩ := Stmt.bodyActive hinj elseBody h₂ ha₁ helse
      refine ⟨f₂, by simpa using hf₂, ha₂.mono fun name hn => ?_⟩
      rw [Stmt.staleAfter, Stmt.declared, ← List.append_assoc]
      exact Stmt.bodyStaleAfter_subset hn
    · -- the first body is run, and the second one is idle behind it
      rw [hk] at h₁ h₂
      obtain ⟨f₁, hf₁, ha₁⟩ := Stmt.bodyActive hinj thenBody h₁ ha hthen
      have ha₂ := ha₁.sameBut (Stmt.bodyIdle elseBody h₂)
      refine ⟨f₁, by simpa using hf₁, ha₂.mono fun name hn => ?_⟩
      rw [Stmt.staleAfter, Stmt.declared, ← List.append_assoc]
      rcases List.mem_append.mp hn with hn | hn
      · exact List.mem_append_left _ (Stmt.bodyStaleAfter_subset hn)
      · exact List.mem_append_right _ hn
  | .ret values span, s, s', f, stale, h, ha, hs => by
    rw [Stmt.predicated] at h
    cases h
  | .call receiver member args span, s, s', f, stale, h, ha, hs => by
    rw [Stmt.isScoped] at hs
    rw [Stmt.predicated] at h
    obtain ⟨v, hv, h⟩ := Option.bind_eq_some_iff.mp h
    cases h
    refine ⟨f, ?_, ha⟩
    rw [← ha.eval_eq hs] at hv
    rw [Stmt.exec, hv]
    rfl

/-- So do statements one after another. -/
theorem Stmt.bodyActive
    (hinj : ∀ name name' ref, refOf name = some ref → refOf name' = some ref → name = name') :
    ∀ (body : List Stmt) {s s' : View V} {f : Frame V} {stale : List String},
    Stmt.bodyPredicated rt t refOf true s body = some s' → s.Agrees refOf stale f →
      Stmt.bodyIsScoped stale body = true →
        ∃ f', Stmt.execBody rt t f body = some (f', none) ∧
          s'.Agrees refOf (Stmt.bodyStaleAfter stale body) f'
  | [], s, s', f, stale, h, ha, hs => by
    rw [Stmt.bodyPredicated] at h
    cases h
    exact ⟨f, by rw [Stmt.execBody], ha⟩
  | stmt :: rest, s, s', f, stale, h, ha, hs => by
    rw [Stmt.bodyIsScoped, Bool.and_eq_true] at hs
    rw [Stmt.bodyPredicated] at h
    obtain ⟨s₁, h₁, h₂⟩ := Option.bind_eq_some_iff.mp h
    obtain ⟨f₁, hf₁, ha₁⟩ := Stmt.active hinj stmt h₁ ha hs.1
    obtain ⟨f₂, hf₂, ha₂⟩ := Stmt.bodyActive hinj rest h₂ ha₁ hs.2
    refine ⟨f₂, ?_, ha₂⟩
    rw [Stmt.execBody, hf₁]
    exact hf₂

end

end

end ScriptGraph
