import ScriptGraph.Proofs.CommandLine.Outcome

/-!
# More than one input

A file is refused if an input has been given, but an inline source takes the place of an earlier
input. So several inputs are refused if a file is among those behind the first one, and otherwise
all but the last of them are dropped.

* `Item.Valid` — items whose operands are as they should be;
* `accepted_iff` — valid items can be processed if no file stands behind another input;
* `interpret_refuses` — if they cannot be processed, it is for their number;
* `interpret_inputs` — what two or more inputs amount to.
-/

namespace ScriptGraph.CommandLine

/-! ## Valid items -/

/-- Is the operand of an item as it should be? A table has to be readable, and an id has to be a
number. -/
def Item.Valid (files : Files) : Item → Prop
  | .builtins path => ∃ table, loadBuiltins files path = .ok table
  | .firstRef text => ∃ n, int32? text = some n
  | _ => True

variable {files : Files} {earlier items : List Item} {item : Item}

/-- An item that can be processed nowhere but in front of other inputs is a file. -/
theorem Item.Valid.accepted_or (h : item.Valid files) (earlier : List Item) :
    item.Accepted files earlier ∨
      ∃ path, item = .file path ∧ earlier.filterMap Item.input? ≠ [] := by
  cases item with
  | source text | listing => exact .inl trivial
  | builtins path | firstRef text => exact .inl h
  | file path =>
    by_cases he : earlier.filterMap Item.input? = []
    · exact .inl he
    · exact .inr ⟨path, rfl, he⟩

/-- Valid items that cannot be processed are refused because there are too many inputs. -/
theorem interpret_refuses {args : List String} (hs : Spells items args)
    (hv : ∀ item ∈ items, item.Valid files) (ha : ¬Accepted files earlier items) :
    interpret files (.ofItems files earlier) args = .error .tooManyInputs := by
  induction hs generalizing earlier with
  | nil => exact absurd accepted_nil ha
  | @cons item items word args hw hs ih =>
    obtain ⟨hitem, hitems⟩ := List.forall_mem_cons.mp hv
    rcases hitem.accepted_or earlier with hfirst | ⟨path, rfl, he⟩
    · rw [interpret_word hw hfirst]
      exact ih hitems fun hrest => ha (accepted_cons.mpr ⟨hfirst, hrest⟩)
    · obtain ⟨hd, rfl⟩ := Item.mem_spellings_file.mp hw
      rw [List.singleton_append, interpret_operand hd, if_pos]
      rw [Request.ofItems, List.getLast?_isSome]
      exact he

/-- Only a file gives a file as the input. -/
theorem Item.input?_eq_file {path : String} :
    item.input? = some (.file path) ↔ item = .file path := by
  cases item <;> simp [input?]

/-- Valid items can be processed if and only if no file is among the inputs behind the first one. -/
theorem accepted_iff (hv : ∀ item ∈ items, item.Valid files) :
    Accepted files [] items ↔ ∀ path, .file path ∉ (items.filterMap Item.input?).tail := by
  constructor
  · intro ha path hp
    obtain ⟨front, behind, htail⟩ := List.append_of_mem hp
    obtain ⟨input, inputs, hinputs⟩ := List.exists_cons_of_ne_nil
      (l := items.filterMap Item.input?) (by rintro hnil; rw [hnil] at hp; cases hp)
    rw [hinputs, List.tail_cons] at htail
    -- the file is the head of what is collected behind the inputs in front of it
    obtain ⟨before, rest, rfl, hbefore, hrest⟩ := List.filterMap_eq_append_iff.mp
      (hinputs.trans (by rw [htail, ← List.cons_append]))
    obtain ⟨skipped, item, others, rfl, hskipped, hitem, -⟩ := List.filterMap_eq_cons_iff.mp hrest
    obtain rfl := Item.input?_eq_file.mp hitem
    have hfirst := ha (before ++ skipped) (.file path) others (by simp)
    simp [Item.Accepted, hbefore] at hfirst
  · rintro hno before item behind rfl
    rcases (hv item (by simp)).accepted_or ([] ++ before) with ha | ⟨path, rfl, he⟩
    · exact ha
    · refine absurd ?_ (hno path)
      obtain ⟨input, inputs, hinputs⟩ := List.exists_cons_of_ne_nil he
      rw [List.nil_append] at hinputs
      rw [List.filterMap_append, hinputs, List.cons_append, List.tail_cons]
      exact List.mem_append_right _ (by simp [Item.input?])

/-! ## Two or more inputs -/

/-- If no file stands behind the first of two or more inputs, the last one is an inline source. -/
theorem exists_inline_of_no_file {inputs : List Input} (h2 : 2 ≤ inputs.length)
    (hno : ∀ path, .file path ∉ inputs.tail) : ∃ text, inputs.getLast? = some (.inline text) := by
  obtain ⟨first, second, others, rfl⟩ : ∃ first second others,
      inputs = first :: second :: others := by
    match inputs, h2 with
    | first :: second :: others, _ => exact ⟨first, second, others, rfl⟩
  obtain ⟨last, hlast⟩ := Option.isSome_iff_exists.mp
    (List.getLast?_isSome.mpr (List.cons_ne_nil second others))
  rw [List.getLast?_cons_cons, hlast]
  cases last with
  | inline text => exact ⟨text, rfl⟩
  | file path => exact absurd (List.mem_of_getLast? hlast) (hno path)

/-- **More than one input.** Take arguments that are options with valid operands and two or more
inputs, in any order, and that ask neither for help nor for the version. They are refused for the
number of inputs if a file is among the inputs behind the first one. Otherwise they are not refused:
the last inline source is compiled, and all inputs before it are dropped. -/
theorem interpret_inputs {files : Files} {items : List Item} {args : List String}
    (hs : Spells items args) (hv : ∀ item ∈ items, item.Valid files)
    (h2 : 2 ≤ (items.filterMap Item.input?).length) :
    ((∃ path, .file path ∈ (items.filterMap Item.input?).tail) →
      (interpret files {} args).mapError UsageError.message = .error "Too many arguments.") ∧
    ((∀ path, .file path ∉ (items.filterMap Item.input?).tail) →
      ∃ text, (items.filterMap Item.input?).getLast? = some (.inline text) ∧
        interpret files {} args = .ok (.compile (.inline text) (decide (.listing ∈ items))
          (Request.ofItems files items).options)) := by
  have hnone : Request.ofItems files [] = {} := by simp [Request.ofItems]
  rw [← hnone]
  constructor
  · rintro ⟨path, hp⟩
    rw [interpret_refuses hs hv fun ha => (accepted_iff hv).mp ha path hp]
    rfl
  · intro hno
    obtain ⟨text, htext⟩ := exists_inline_of_no_file h2 hno
    have hinput : (Request.ofItems files ([] ++ items)).input = some (.inline text) := htext
    exact ⟨text, htext, interpret_eq_ok_iff.mpr (.compile hs ((accepted_iff hv).mpr hno) hinput)⟩

/-- A file, an option and an inline source: the source is compiled and the file is not even read. A
file and an option behind a source are refused. -/
theorem interpret_inputs_fileFirst :
    (∃ text, interpret (fun _ => .error .notFound) {} ["main.ss", "--dump", "-e", "def Main()"] =
      .ok (.compile (.inline text) true {})) ∧
    (interpret (fun _ => .error .notFound) {} ["-e", "def Main()", "--dump", "main.ss"]).mapError
      UsageError.message = .error "Too many arguments." := by
  let files : Files := fun _ => .error .notFound
  have hfile : ["main.ss"] ∈ (Item.file "main.ss").spellings :=
    Item.mem_spellings_file.mpr ⟨by simp, rfl⟩
  have hsource : ["-e", "def Main()"] ∈ (Item.source "def Main()").spellings := by decide
  have hlisting : ["--dump"] ∈ Item.listing.spellings := by decide
  constructor
  · have hs := Spells.cons hfile (.cons hlisting (.cons hsource .nil))
    have hv : ∀ item ∈ [Item.file "main.ss", .listing, .source "def Main()"], item.Valid files := by
      simp [Item.Valid]
    obtain ⟨text, -, h⟩ := (interpret_inputs hs hv (by decide)).2 (by simp [Item.input?])
    exact ⟨text, h⟩
  · have hs := Spells.cons hsource (.cons hlisting (.cons hfile .nil))
    have hv : ∀ item ∈ [Item.source "def Main()", .listing, .file "main.ss"], item.Valid files := by
      simp [Item.Valid]
    exact (interpret_inputs hs hv (by decide)).1 ⟨"main.ss", by simp [Item.input?]⟩

/-- A file with an inline source behind it is not refused, and dropped. -/
theorem second_source_accepted :
    ∃ items args, Spells items args ∧ (∀ item ∈ items, item.Valid fun _ => .error .notFound) ∧
      items.filterMap Item.input? = [.file "ok.ss", .inline "def Main() \x7b \x7d"] ∧
      interpret (fun _ => .error .notFound) {} args =
        .ok (.compile (.inline "def Main() \x7b \x7d") false {}) := by
  have hfile : ["ok.ss"] ∈ (Item.file "ok.ss").spellings :=
    Item.mem_spellings_file.mpr ⟨by simp, rfl⟩
  have hsource : ["-e", "def Main() \x7b \x7d"] ∈
      (Item.source "def Main() \x7b \x7d").spellings := by decide
  exact ⟨_, _, .cons hfile (.cons hsource .nil), by simp [Item.Valid], rfl, by simp [interpret]⟩

end ScriptGraph.CommandLine
