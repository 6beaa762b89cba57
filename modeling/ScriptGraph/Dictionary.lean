/-!
# Dictionaries

A dictionary assigns values to names. It is a list of entries without two for one name; a new entry
for a name takes the place of the old one, and other entries keep theirs. `get?` is the view through
which everything else is said: `get?_insert_self` and `get?_insert_of_ne` describe `insert`, and the
order of entries is never observed.
-/

namespace ScriptGraph

/-- A finite assignment of values to names. -/
structure Dictionary (α : Type) where
  /-- the names with their values -/
  entries : List (String × α)
  /-- no name has two entries -/
  distinct : (entries.map Prod.fst).Nodup

namespace Dictionary

variable {α : Type}

/-- The dictionary without entries. -/
def empty : Dictionary α :=
  ⟨[], List.nodup_nil⟩

/-- The value of a name. -/
def get? (d : Dictionary α) (name : String) : Option α :=
  d.entries.lookup name

/-- The number of names with a value. -/
def size (d : Dictionary α) : Nat :=
  d.entries.length

/-- Has no name a value? -/
def isEmpty (d : Dictionary α) : Bool :=
  d.entries.isEmpty

/-- A list of entries in which a name has a given value: its first entry is replaced, or one is
added at the end. -/
def put (name : String) (value : α) : List (String × α) → List (String × α)
  | [] => [(name, value)]
  | entry :: rest =>
    if entry.1 = name then (name, value) :: rest else entry :: put name value rest

theorem mem_keys_put {name other : String} {value : α} {l : List (String × α)} :
    other ∈ (put name value l).map Prod.fst ↔ other = name ∨ other ∈ l.map Prod.fst := by
  induction l with
  | nil => simp [put]
  | cons entry rest ih =>
    by_cases h : entry.1 = name
    · simp [put, h]
    · simp only [put, h, if_false, List.map_cons, List.mem_cons, ih]
      constructor
      · rintro (h₁ | h₁ | h₁)
        · exact Or.inr (Or.inl h₁)
        · exact Or.inl h₁
        · exact Or.inr (Or.inr h₁)
      · rintro (h₁ | h₁ | h₁)
        · exact Or.inr (Or.inl h₁)
        · exact Or.inl h₁
        · exact Or.inr (Or.inr h₁)

theorem nodup_keys_put {name : String} {value : α} {l : List (String × α)}
    (h : (l.map Prod.fst).Nodup) : ((put name value l).map Prod.fst).Nodup := by
  induction l with
  | nil => simp [put]
  | cons entry rest ih =>
    rw [List.map_cons, List.nodup_cons] at h
    by_cases hn : entry.1 = name
    · rw [put, if_pos hn, List.map_cons, List.nodup_cons]
      exact ⟨hn ▸ h.1, h.2⟩
    · rw [put, if_neg hn, List.map_cons, List.nodup_cons]
      refine ⟨fun hm => ?_, ih h.2⟩
      rcases mem_keys_put.mp hm with hm | hm
      · exact hn hm
      · exact h.1 hm

theorem lookup_put_self (name : String) (value : α) (l : List (String × α)) :
    (put name value l).lookup name = some value := by
  induction l with
  | nil => simp [put]
  | cons entry rest ih =>
    obtain ⟨key, old⟩ := entry
    by_cases h : key = name
    · simp [put, h]
    · have h' : (name == key) = false := by simpa using Ne.symm h
      simp [put, h, List.lookup_cons, h', ih]

theorem lookup_put_of_ne {name other : String} (h : other ≠ name) (value : α)
    (l : List (String × α)) : (put name value l).lookup other = l.lookup other := by
  have hb : (other == name) = false := by simpa using h
  induction l with
  | nil => simp [put, List.lookup_cons, hb]
  | cons entry rest ih =>
    obtain ⟨key, old⟩ := entry
    by_cases hn : key = name
    · simp [put, hn, List.lookup_cons, hb]
    · simp [put, hn, List.lookup_cons, ih]

/-- Gives a name a value, whatever value it had. -/
def insert (d : Dictionary α) (name : String) (value : α) : Dictionary α :=
  ⟨put name value d.entries, nodup_keys_put d.distinct⟩

@[simp]
theorem get?_empty (name : String) : (empty : Dictionary α).get? name = none :=
  rfl

@[simp]
theorem get?_insert_self (d : Dictionary α) (name : String) (value : α) :
    (d.insert name value).get? name = some value :=
  lookup_put_self name value d.entries

theorem get?_insert_of_ne {name other : String} (h : other ≠ name) (d : Dictionary α) (value : α) :
    (d.insert name value).get? other = d.get? other :=
  lookup_put_of_ne h value d.entries

/-- Adds entries one after another. -/
def insertAll (d : Dictionary α) (entries : List (String × α)) : Dictionary α :=
  entries.foldl (fun d e => d.insert e.1 e.2) d

/-- The dictionary of a list of entries, of which the last one for a name counts. -/
def ofList (entries : List (String × α)) : Dictionary α :=
  empty.insertAll entries

/-- Do two dictionaries assign the same values? Since names do not repeat, it is enough that they
are of one size and that every entry of one is found in the other. -/
def agrees [BEq α] (a b : Dictionary α) : Bool :=
  a.size == b.size && a.entries.all fun e => b.get? e.1 == some e.2

end Dictionary

end ScriptGraph
