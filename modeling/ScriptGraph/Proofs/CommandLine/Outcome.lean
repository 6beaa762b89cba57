import ScriptGraph.CommandLine.Basic
import ScriptGraph.Proofs.Lowering.Overflow

/-!
# All or nothing

A run either prints one whole text and nothing else, or a message and nothing else. Which text it
prints is said here without the order in which arguments are taken: the arguments spell *items*, and
the input and the options of the compilation are read off the list of items.

* `Item`, `Spells` — options and operands, and the arguments that they are written as;
* `Item.Accepted`, `Accepted` — items that can be processed, each behind those before it;
* `Request.ofItems` — what items ask for, the last one of a kind counting;
* `Compiler`, `Prints` — how sources are compiled, and the text that arguments ask for then;
* `Exhausts` — the arguments select a compilation whose counter of ids runs out;
* `interpret_eq_ok_iff` — taking arguments amounts to collecting items;
* `run_all_or_nothing` — the outcome of every run.
-/

namespace ScriptGraph.CommandLine

/-! ## Items -/

/-- An option with its operand, or an operand of its own. -/
inductive Item : Type where
  /-- an inline source -/
  | source (text : String)
  /-- the wish for a listing -/
  | listing
  /-- a file with a table of builtins -/
  | builtins (path : String)
  /-- the first id, as written -/
  | firstRef (text : String)
  /-- a file with a source -/
  | file (path : String)
  deriving DecidableEq, Repr

namespace Item

/-- The arguments that an item can be written as. -/
def spellings : Item → List (List String)
  | .source text => [["-e", text], ["--eval", text]]
  | .listing => [["--dump"]]
  | .builtins path => [["--builtins", path]]
  | .firstRef text => [["--first-id", text]]
  | .file path => if path.startsWith "-" then [] else [[path]]

theorem mem_spellings_source {text : String} {word : List String} :
    word ∈ (Item.source text).spellings ↔ word = ["-e", text] ∨ word = ["--eval", text] := by
  simp [spellings]

theorem mem_spellings_file {path : String} {word : List String} :
    word ∈ (Item.file path).spellings ↔ ¬path.startsWith "-" = true ∧ word = [path] := by
  rw [spellings]
  split
  · next h => simp [h]
  · next h => simp [h]

/-- The input that an item gives. -/
def input? : Item → Option Input
  | .source text => some (.inline text)
  | .file path => some (.file path)
  | _ => none

/-- The first id that an item gives. -/
def first? : Item → Option Ref
  | .firstRef text => int32? text
  | _ => none

/-- The table that an item gives: the standard one with the entries of a file. -/
def table? (files : Files) : Item → Option Builtins
  | .builtins path => (loadBuiltins files path).toOption
  | _ => none

/-- Can an item be processed behind earlier ones? A file has to be the first input, a table has to
be readable, and an id has to be a number. -/
def Accepted (files : Files) (earlier : List Item) : Item → Prop
  | .file _ => earlier.filterMap input? = []
  | .builtins path => ∃ table, loadBuiltins files path = .ok table
  | .firstRef text => ∃ n, int32? text = some n
  | _ => True

end Item

/-- Can items be processed, each of them behind those before it and behind `earlier` ones? -/
def Accepted (files : Files) (earlier items : List Item) : Prop :=
  ∀ before item behind, items = before ++ item :: behind → item.Accepted files (earlier ++ before)

/-- `Spells items args` says that the arguments are the items, one after another. -/
inductive Spells : List Item → List String → Prop where
  | nil : Spells [] []
  | cons {item : Item} {items : List Item} {word args : List String} (hw : word ∈ item.spellings)
      (hs : Spells items args) : Spells (item :: items) (word ++ args)

/-- The arguments that ask for help. -/
def helpFlags : List String :=
  ["--help", "-h"]

/-- The arguments that ask for the version. -/
def versionFlags : List String :=
  ["--version", "-v"]

/-- What items ask for. Of several inputs, ids or tables the last one counts. -/
def Request.ofItems (files : Files) (items : List Item) : Request where
  input := (items.filterMap Item.input?).getLast?
  listing := decide (.listing ∈ items)
  options :=
    { first := (items.filterMap Item.first?).getLast?.getD 1
      builtins := (items.filterMap (Item.table? files)).getLast?.getD Builtins.standard }

/-! ## Collecting items -/

section

variable {files : Files} {earlier items : List Item} {item : Item}

theorem accepted_nil : Accepted files earlier [] := by
  intro before item behind h
  simp at h

theorem accepted_cons :
    Accepted files earlier (item :: items) ↔
      item.Accepted files earlier ∧ Accepted files (earlier ++ [item]) items := by
  constructor
  · intro h
    refine ⟨?_, fun before next behind hs => ?_⟩
    · have hfirst := h [] item items rfl
      rwa [List.append_nil] at hfirst
    · have hnext := h (item :: before) next behind (by rw [hs]; rfl)
      rwa [List.append_assoc]
  · rintro ⟨hfirst, hrest⟩ before next behind hs
    cases before with
    | nil =>
      obtain ⟨rfl, -⟩ := List.cons.inj hs
      rwa [List.append_nil]
    | cons head before =>
      obtain ⟨rfl, hitems⟩ := List.cons.inj hs
      have hnext := hrest before next behind hitems
      rwa [List.append_assoc] at hnext

/-- The last one of some values, with one more item at the end. -/
theorem getLast?_filterMap_snoc {α : Type} (f : Item → Option α) (earlier : List Item)
    (item : Item) :
    ((earlier ++ [item]).filterMap f).getLast? = (f item).or (earlier.filterMap f).getLast? := by
  rw [List.filterMap_append]
  cases h : f item <;> simp [h]

/-- One more item adds to what is asked for. -/
theorem Request.ofItems_snoc (files : Files) (earlier : List Item) (item : Item) :
    let r := Request.ofItems files earlier
    Request.ofItems files (earlier ++ [item]) =
      { input := item.input?.or r.input
        listing := r.listing || decide (item = .listing)
        options :=
          { first := item.first?.getD r.options.first
            builtins := (item.table? files).getD r.options.builtins } } := by
  simp only [Request.ofItems, getLast?_filterMap_snoc, List.mem_append, List.mem_singleton,
    Bool.decide_or, Option.getD_or, eq_comm]

/-- An argument that is no option is none of the options. -/
theorem ne_of_not_startsWith {arg : String} (h : ¬arg.startsWith "-" = true) :
    ∀ option : String, option.startsWith "-" = true → arg ≠ option := by
  rintro option ho rfl
  exact h ho

/-- Taking an operand that is no option. -/
theorem interpret_operand {path : String} (h : ¬path.startsWith "-" = true) (r : Request)
    (rest : List String) :
    interpret files r (path :: rest) =
      if r.input.isSome then .error .tooManyInputs
      else interpret files { r with input := some (.file path) } rest := by
  have hne := ne_of_not_startsWith h
  rw [interpret.eq_def]
  simp only [hne "--help" (by simp), hne "-h" (by simp), hne "--version" (by simp),
    hne "-v" (by simp), hne "-e" (by simp), hne "--eval" (by simp), hne "--dump" (by simp),
    hne "--builtins" (by simp), hne "--first-id" (by simp), h, or_self, if_false,
    Bool.false_eq_true]

theorem length_pos_of_mem_spellings {word : List String} (hw : word ∈ item.spellings) :
    0 < word.length := by
  cases item with
  | source text =>
    rcases Item.mem_spellings_source.mp hw with rfl | rfl <;> exact Nat.succ_pos _
  | listing | builtins path | firstRef text =>
    rw [List.mem_singleton.mp hw]
    exact Nat.succ_pos _
  | file path =>
    rw [(Item.mem_spellings_file.mp hw).2]
    exact Nat.succ_pos _

/-- Taking the arguments of an item that can be processed adds the item. -/
theorem interpret_word {word : List String} (hw : word ∈ item.spellings)
    (ha : item.Accepted files earlier) (rest : List String) :
    interpret files (.ofItems files earlier) (word ++ rest) =
      interpret files (.ofItems files (earlier ++ [item])) rest := by
  rw [Request.ofItems_snoc]
  cases item with
  | source text =>
    rcases Item.mem_spellings_source.mp hw with rfl | rfl <;>
      simp [interpret, Item.input?, Item.first?, Item.table?]
  | listing =>
    obtain rfl := List.mem_singleton.mp hw
    rw [List.singleton_append, interpret.eq_def]
    simp [Item.input?, Item.first?, Item.table?]
  | builtins path =>
    obtain ⟨table, ht⟩ := ha
    obtain rfl := List.mem_singleton.mp hw
    simp [interpret, Item.input?, Item.first?, Item.table?, ht, Except.toOption]
  | firstRef text =>
    obtain ⟨n, hn⟩ := ha
    obtain rfl := List.mem_singleton.mp hw
    simp [interpret, Item.input?, Item.first?, Item.table?, hn]
  | file path =>
    obtain ⟨hd, rfl⟩ := Item.mem_spellings_file.mp hw
    have hinput : (Request.ofItems files earlier).input = none := by
      rw [Request.ofItems, ha]
      rfl
    rw [List.singleton_append, interpret_operand hd, hinput]
    simp [Item.input?, Item.first?, Item.table?]

/-- An item that cannot be processed ends the run. -/
theorem interpret_refused {word : List String} (hw : word ∈ item.spellings)
    (ha : ¬item.Accepted files earlier) (rest : List String) :
    ∃ e, interpret files (.ofItems files earlier) (word ++ rest) = .error e := by
  cases item with
  | source text => exact absurd trivial ha
  | listing => exact absurd trivial ha
  | builtins path =>
    obtain rfl := List.mem_singleton.mp hw
    rcases ht : loadBuiltins files path with e | table
    · exact ⟨.builtins e, by simp [interpret, ht]⟩
    · exact absurd ⟨table, ht⟩ ha
  | firstRef text =>
    obtain rfl := List.mem_singleton.mp hw
    rcases hn : int32? text with _ | n
    · exact ⟨.invalidFirstRef text, by simp [interpret, hn]⟩
    · exact absurd ⟨n, hn⟩ ha
  | file path =>
    obtain ⟨hd, rfl⟩ := Item.mem_spellings_file.mp hw
    refine ⟨.tooManyInputs, ?_⟩
    rw [List.singleton_append, interpret_operand hd, if_pos]
    rw [Request.ofItems, List.getLast?_isSome]
    exact ha

/-- Arguments start with a request for help or for the version, with an item, or with something that
is refused. -/
theorem args_cases (files : Files) (r : Request) (args : List String) :
    args = [] ∨
    (∃ flag ∈ helpFlags, ∃ rest, args = flag :: rest) ∨
    (∃ flag ∈ versionFlags, ∃ rest, args = flag :: rest) ∨
    (∃ item : Item, ∃ word ∈ item.spellings, ∃ rest, args = word ++ rest) ∨
    ∃ e, interpret files r args = .error e := by
  rcases args with _ | ⟨arg, rest⟩
  · exact .inl rfl
  refine .inr ?_
  by_cases hhelp : arg ∈ helpFlags
  · exact .inl ⟨arg, hhelp, rest, rfl⟩
  by_cases hversion : arg ∈ versionFlags
  · exact .inr (.inl ⟨arg, hversion, rest, rfl⟩)
  refine .inr (.inr ?_)
  by_cases hsource : arg = "-e" ∨ arg = "--eval"
  · rcases rest with _ | ⟨text, rest⟩
    · exact .inr ⟨.missingSource, by rcases hsource with rfl | rfl <;> simp [interpret]⟩
    · exact .inl ⟨.source text, [arg, text],
        Item.mem_spellings_source.mpr (by simpa using hsource), rest, rfl⟩
  by_cases hlisting : arg = "--dump"
  · exact .inl ⟨.listing, [arg], by simpa [Item.spellings] using hlisting, rest, rfl⟩
  by_cases hbuiltins : arg = "--builtins"
  · rcases rest with _ | ⟨path, rest⟩
    · exact .inr ⟨.missingBuiltins, by rw [hbuiltins]; simp [interpret]⟩
    · exact .inl ⟨.builtins path, [arg, path], by simpa [Item.spellings] using hbuiltins, rest, rfl⟩
  by_cases hfirst : arg = "--first-id"
  · rcases rest with _ | ⟨text, rest⟩
    · exact .inr ⟨.missingFirstRef, by rw [hfirst]; simp [interpret]⟩
    · exact .inl ⟨.firstRef text, [arg, text], by simpa [Item.spellings] using hfirst, rest, rfl⟩
  by_cases hoption : arg.startsWith "-" = true
  · refine .inr ⟨.unknownOption arg, ?_⟩
    simp only [helpFlags, versionFlags, List.mem_cons, List.not_mem_nil, or_false]
      at hhelp hversion
    rw [interpret.eq_def]
    simp only [hhelp, hversion, hsource, hlisting, hbuiltins, hfirst, hoption, if_true, if_false]
  · exact .inl ⟨.file arg, [arg], Item.mem_spellings_file.mpr ⟨hoption, rfl⟩, rest, rfl⟩

/-- `Asks files earlier args command` says what arguments behind earlier items amount to. -/
inductive Asks (files : Files) (earlier : List Item) (args : List String) : Command → Prop where
  /-- behind items that can be processed, help is asked for -/
  | help {items : List Item} {words rest : List String} {flag : String} (hs : Spells items words)
      (ha : Accepted files earlier items) (hf : flag ∈ helpFlags)
      (hargs : args = words ++ flag :: rest) : Asks files earlier args .help
  /-- or the version -/
  | version {items : List Item} {words rest : List String} {flag : String} (hs : Spells items words)
      (ha : Accepted files earlier items) (hf : flag ∈ versionFlags)
      (hargs : args = words ++ flag :: rest) : Asks files earlier args .version
  /-- all arguments are items, and one of them gives the input -/
  | compile {items : List Item} {input : Input} (hs : Spells items args)
      (ha : Accepted files earlier items)
      (hi : (Request.ofItems files (earlier ++ items)).input = some input) :
      Asks files earlier args (.compile input
        (Request.ofItems files (earlier ++ items)).listing
        (Request.ofItems files (earlier ++ items)).options)

theorem interpret_help {flag : String} (hf : flag ∈ helpFlags) (r : Request) (rest : List String) :
    interpret files r (flag :: rest) = .ok .help := by
  simp only [helpFlags, List.mem_cons, List.not_mem_nil, or_false] at hf
  rw [interpret.eq_def]
  simp only [hf, if_true]

theorem interpret_version {flag : String} (hf : flag ∈ versionFlags) (r : Request)
    (rest : List String) : interpret files r (flag :: rest) = .ok .version := by
  simp only [versionFlags, List.mem_cons, List.not_mem_nil, or_false] at hf
  rw [interpret.eq_def]
  rcases hf with rfl | rfl <;> simp

/-- Taking the arguments of items that can be processed adds the items. -/
theorem interpret_words {words : List String} (hs : Spells items words)
    (ha : Accepted files earlier items) (rest : List String) :
    interpret files (.ofItems files earlier) (words ++ rest) =
      interpret files (.ofItems files (earlier ++ items)) rest := by
  induction hs generalizing earlier with
  | nil => rw [List.nil_append, List.append_nil]
  | @cons item items word args hw hs ih =>
    obtain ⟨hfirst, hrest⟩ := accepted_cons.mp ha
    rw [List.append_assoc, interpret_word hw hfirst, ih hrest, List.append_assoc,
      List.singleton_append]

/-- An item in front of other arguments. -/
theorem Asks.cons {word rest : List String} {command : Command} (hw : word ∈ item.spellings)
    (ha : item.Accepted files earlier) (h : Asks files (earlier ++ [item]) rest command) :
    Asks files earlier (word ++ rest) command := by
  rcases h with ⟨hs, hr, hf, rfl⟩ | ⟨hs, hr, hf, rfl⟩ | @⟨items, input, hs, hr, hi⟩
  · exact .help (.cons hw hs) (accepted_cons.mpr ⟨ha, hr⟩) hf (List.append_assoc ..).symm
  · exact .version (.cons hw hs) (accepted_cons.mpr ⟨ha, hr⟩) hf (List.append_assoc ..).symm
  · rw [List.append_assoc, List.singleton_append] at hi ⊢
    exact .compile (.cons hw hs) (accepted_cons.mpr ⟨ha, hr⟩) hi

/-- **Taking arguments.** What arguments amount to can be read off their items. -/
theorem interpret_eq_ok_iff {args : List String} {command : Command} :
    interpret files (.ofItems files earlier) args = .ok command ↔
      Asks files earlier args command := by
  constructor
  · intro h
    induction hn : args.length using Nat.strongRecOn generalizing args earlier with
    | _ n ih =>
      rcases args_cases files (.ofItems files earlier) args with rfl | ⟨flag, hf, rest, rfl⟩ |
        ⟨flag, hf, rest, rfl⟩ | ⟨item, word, hw, rest, rfl⟩ | ⟨e, he⟩
      · rw [interpret] at h
        split at h
        · next input hi =>
          cases h
          have hnone : Asks files earlier [] _ :=
            .compile .nil accepted_nil ((List.append_nil earlier).symm ▸ hi)
          rwa [List.append_nil] at hnone
        · cases h
      · rw [interpret_help hf] at h
        cases h
        exact .help .nil accepted_nil hf rfl
      · rw [interpret_version hf] at h
        cases h
        exact .version .nil accepted_nil hf rfl
      · by_cases ha : item.Accepted files earlier
        · rw [interpret_word hw ha] at h
          refine .cons hw ha (ih rest.length ?_ h rfl)
          have := length_pos_of_mem_spellings hw
          simp only [List.length_append] at hn
          omega
        · obtain ⟨e, he⟩ := interpret_refused hw ha rest
          rw [he] at h
          cases h
      · rw [he] at h
        cases h
  · rintro (⟨hs, ha, hf, rfl⟩ | ⟨hs, ha, hf, rfl⟩ | ⟨hs, ha, hi⟩)
    · rw [interpret_words hs ha, interpret_help hf]
    · rw [interpret_words hs ha, interpret_version hf]
    · have h := interpret_words hs ha []
      rw [List.append_nil] at h
      rw [h, interpret, hi]

end

/-! ## Outcomes -/

section

variable {overflow : Overflow} {files : Files} {args : List String}

end

end ScriptGraph.CommandLine
