import ScriptGraph.Tree.Basic

/-!
# Names in a body

Which names a statement declares, at any depth, and which ones it uses. There is one scope for a
whole method, so what counts is the order of the text and not the nesting of bodies.

A declaration inside of a branch binds its name also where the branch was not taken. Behind the
branch such a name is *stale*, until it is declared again. A body is *scoped* if it uses no stale
name, and *structured* if moreover its branches do not return.
-/

namespace ScriptGraph

namespace Stmt

mutual

/-- The names that a statement declares, in its branches too. -/
def declared : Stmt → List String
  | .declare d _ => [d.name.text]
  | .assign _ _ _ _ => []
  | .branch _ thenBody none _ => bodyDeclared thenBody
  | .branch _ thenBody (some elseBody) _ => bodyDeclared thenBody ++ bodyDeclared elseBody
  | .ret _ _ => []
  | .call _ _ _ _ => []

/-- The names that the statements of a body declare. -/
def bodyDeclared : List Stmt → List String
  | [] => []
  | s :: rest => s.declared ++ bodyDeclared rest

end

end Stmt

/-! ## Uses -/

namespace Expr

mutual

/-- The names whose values an expression may look up. -/
def uses : Expr → List String
  | .number _ => []
  | .var name => [name.text]
  | .neg inner => inner.uses
  | .not inner => inner.uses
  | .binary _ left right => left.uses ++ right.uses
  | .call receiver _ args => receiver.text :: argsUses args
  | .construct _ args => argsUses args

/-- The names whose values some arguments may look up. -/
def argsUses : List Expr → List String
  | [] => []
  | arg :: args => arg.uses ++ argsUses args

end

/-- Does an expression use none of some names? -/
def avoids (names : List String) (e : Expr) : Bool :=
  e.uses.all fun name => !names.contains name

end Expr

/-! ## Stale names -/

namespace Stmt

/-- The names that are stale behind a statement: a declaration refreshes its name, and what a branch
declares is stale behind it. -/
def staleAfter (stale : List String) : Stmt → List String
  | .declare d _ => stale.filter (· ≠ d.name.text)
  | .branch test thenBody elseBody span =>
    stale ++ declared (.branch test thenBody elseBody span)
  | _ => stale

mutual

/-- Does a statement use no stale name? A second body comes behind the first one. -/
def isScoped (stale : List String) : Stmt → Bool
  | .declare d _ => d.init.all (Expr.avoids stale)
  | .assign target _ value _ => !stale.contains target.text && value.avoids stale
  | .branch test thenBody none _ => test.avoids stale && bodyIsScoped stale thenBody
  | .branch test thenBody (some elseBody) _ =>
    test.avoids stale && bodyIsScoped stale thenBody &&
      bodyIsScoped (stale ++ bodyDeclared thenBody) elseBody
  | .ret values _ => values.all (Expr.avoids stale)
  | .call receiver member args _ => (Expr.call receiver member args).avoids stale

/-- Do the statements of a body use no stale name? -/
def bodyIsScoped (stale : List String) : List Stmt → Bool
  | [] => true
  | s :: rest => s.isScoped stale && bodyIsScoped (s.staleAfter stale) rest

end

/-- The names that are stale behind a body. -/
def bodyStaleAfter (stale : List String) : List Stmt → List String
  | [] => stale
  | s :: rest => bodyStaleAfter (s.staleAfter stale) rest

/-- Is a statement a return? -/
def isReturn : Stmt → Bool
  | .ret _ _ => true
  | _ => false

mutual

/-- Does a statement never return? -/
def returnFree : Stmt → Bool
  | .branch _ thenBody none _ => bodyReturnFree thenBody
  | .branch _ thenBody (some elseBody) _ => bodyReturnFree thenBody && bodyReturnFree elseBody
  | .ret _ _ => false
  | _ => true

/-- Does no statement of a body return? -/
def bodyReturnFree : List Stmt → Bool
  | [] => true
  | s :: rest => s.returnFree && bodyReturnFree rest

end

/-- A statement makes stale at most what it declares. -/
theorem staleAfter_subset {stale : List String} {s : Stmt} {name : String}
    (h : name ∈ s.staleAfter stale) : name ∈ stale ++ s.declared := by
  cases s with
  | declare d span => exact List.mem_append_left _ (List.mem_filter.mp h).1
  | branch test thenBody elseBody span => exact h
  | assign target op value span => exact List.mem_append_left _ h
  | ret values span => exact List.mem_append_left _ h
  | call receiver member args span => exact List.mem_append_left _ h

/-- So does a body. -/
theorem bodyStaleAfter_subset {body : List Stmt} {stale : List String} {name : String}
    (h : name ∈ bodyStaleAfter stale body) : name ∈ stale ++ bodyDeclared body := by
  induction body generalizing stale with
  | nil => exact List.mem_append_left _ h
  | cons s rest ih =>
    rw [bodyDeclared, ← List.append_assoc]
    rcases List.mem_append.mp (ih h) with h | h
    · exact List.mem_append_left _ (staleAfter_subset h)
    · exact List.mem_append_right _ h

end Stmt

/-- The names that a method binds: those of its parameters, and what its body declares at any
depth. -/
def Method.bound (m : Method) : List String :=
  m.params.map (·.name.text) ++ Stmt.bodyDeclared m.body

/-- The names that a program binds anywhere, also in methods that have no graph. -/
def Program.bound (p : Program) : List String :=
  p.globals.map (·.name.text) ++ p.methods.flatMap Method.bound

/-- Does a method return outside of branches only, and use no stale name? -/
def Method.isStructured (m : Method) : Bool :=
  Stmt.bodyIsScoped [] m.body && m.body.all fun s => s.isReturn || s.returnFree

/-- Is the entry method structured, if there is one? -/
def Program.isStructured (p : Program) : Bool :=
  p.entry?.all Method.isStructured

end ScriptGraph
