import Dialogue.Settings.Store

/-! Settings over the whole run of a program. The first source that can be read decides on the
table, also if there is no file or the text is faulty, and whatever follows leaves it as it is.
Nothing here depends on how texts are read, but that the empty text stands for the empty table. -/
namespace Dialogue.Settings

variable {parse : String → Option Table}

/-- The table that a source stands for. A faulty text stands for the empty one, as does a missing
file; a file that holds no text stands for none at all. -/
def Source.table? (parse : String → Option Table) : Source → Option Table
  | text content => some ((parse content).getD [])
  | file content => (String.fromUTF8? content).map fun content => (parse content).getD []
  | missingFile => some []

/-- What a program may do with its settings. The type that it wants a value in comes with a
function that reads values and with a default. -/
inductive Access : Type 1
  | setup (source : Source)
  | isSet
  | get {α : Type} (read : Value → Option α) (otherwise : α) (key : String)

namespace Access

def Answer : Access → Type
  | setup _ => Except SetupError Unit
  | isSet => Bool
  | @get α _ _ _ => α

def table? (parse : String → Option Table) : Access → Option Table
  | setup source => source.table? parse
  | isSet => none
  | get .. => none

end Access

namespace Store

def perform (parse : String → Option Table) (store : Store) :
    (access : Access) → access.Answer × Store
  | .setup source =>
    let (answer, _, next) := store.setupWith parse source
    (answer, next)
  | .isSet => (store.isSet, store)
  | .get read otherwise key => ((store.get read otherwise key).1, store)

def after (parse : String → Option Table) (store : Store) (history : List Access) : Store :=
  history.foldl (fun store access => (store.perform parse access).2) store

variable {store : Store} {source : Source} {table : Table}

private theorem tableOf_eq (content : String) :
    (tableOf parse content).1 = (parse content).getD [] := by
  unfold tableOf
  cases parse content <;> rfl

theorem perform_setup_of_unreadable (h : source.table? parse = none) :
    store.perform parse (.setup source) = (.error .notText, store) := by
  cases source with
  | text content => simp [Source.table?] at h
  | missingFile => simp [Source.table?] at h
  | file content =>
    have hcontent : String.fromUTF8? content = none := by simpa [Source.table?] using h
    simp [perform, setupWith, Source.read, hcontent]

private theorem exists_read_of_table? (hempty : (parse "").getD [] = [])
    (h : source.table? parse = some table) :
    ∃ content, source.read.1 = .ok content ∧ (tableOf parse content).1 = table := by
  cases source with
  | text content => exact ⟨content, rfl, (tableOf_eq content).trans (Option.some.inj h)⟩
  | missingFile =>
    refine ⟨"", rfl, ?_⟩
    rw [tableOf_eq, hempty]
    exact Option.some.inj h
  | file bytes =>
    obtain ⟨content, hcontent, htable⟩ := Option.map_eq_some_iff.mp h
    refine ⟨content, ?_, (tableOf_eq content).trans htable⟩
    simp [Source.read, hcontent]

theorem perform_setup_of_unset (hempty : (parse "").getD [] = [])
    (h : source.table? parse = some table) (hunset : store.table = none) :
    store.perform parse (.setup source) = (.ok (), ⟨some table⟩) := by
  obtain ⟨content, hread, htable⟩ := exists_read_of_table? hempty h
  cases hsource : source.read with
  | mk result levels =>
    obtain rfl : result = .ok content := by rw [← hread, hsource]
    simp [perform, setupWith, hsource, hunset, htable]

theorem perform_setup_of_set (hempty : (parse "").getD [] = [])
    (h : source.table? parse ≠ none) (hset : store.table ≠ none) :
    store.perform parse (.setup source) = (.error .alreadySet, store) := by
  obtain ⟨table, htable⟩ := Option.ne_none_iff_exists'.mp h
  obtain ⟨former, hformer⟩ := Option.ne_none_iff_exists'.mp hset
  obtain ⟨content, hread, -⟩ := exists_read_of_table? hempty htable
  cases hsource : source.read with
  | mk result levels =>
    obtain rfl : result = .ok content := by rw [← hread, hsource]
    simp [perform, setupWith, hsource, hformer]

theorem get_fst {α : Type} (read : Value → Option α) (otherwise : α) (key : String) :
    (store.get read otherwise key).1 =
      ((store.table.bind (·.lookup key)).bind read).getD otherwise := by
  unfold get
  cases store.table.bind (·.lookup key) with
  | none => rfl
  | some value => cases h : read value <;> simp [h]

/-- A table that is there stays, and one that is not comes from the access at hand. -/
theorem perform_table (hempty : (parse "").getD [] = []) (access : Access) :
    (store.perform parse access).2.table = store.table.or (access.table? parse) := by
  cases access with
  | isSet => simp [perform, Access.table?]
  | get read otherwise key => simp [perform, Access.table?]
  | setup source =>
    cases h : source.table? parse with
    | none => simp [perform_setup_of_unreadable h, Access.table?, h]
    | some table =>
      cases hstore : store.table with
      | none => simp [perform_setup_of_unset hempty h hstore, Access.table?, h]
      | some former =>
        simp [perform_setup_of_set hempty (h ▸ Option.some_ne_none table)
          (hstore ▸ Option.some_ne_none former), hstore]

private theorem after_table (hempty : (parse "").getD [] = []) (store : Store)
    (history : List Access) :
    (store.after parse history).table =
      store.table.or (history.findSome? (Access.table? parse)) := by
  induction history generalizing store with
  | nil => simp [after]
  | cons access rest ih =>
    have hrest : store.after parse (access :: rest) =
        (store.perform parse access).2.after parse rest := rfl
    rw [hrest, ih, perform_table hempty, Option.or_assoc, List.findSome?_cons]
    cases access.table? parse <;> simp

/-- What a program finds that has accessed its settings so far, in whatever order, and what
every further access does. -/
structure WrittenOnce (parse : String → Option Table) (history : List Access) (store : Store) :
    Prop where
  table : store.table = history.findSome? (Access.table? parse)
  unreadable : ∀ source : Source, source.table? parse = none →
    store.perform parse (.setup source) = (.error .notText, store)
  first : ∀ source : Source, ∀ table, store.table = none → source.table? parse = some table →
    store.perform parse (.setup source) = (.ok (), ⟨some table⟩)
  later : ∀ source : Source, store.table ≠ none → source.table? parse ≠ none →
    store.perform parse (.setup source) = (.error .alreadySet, store)
  isSet : store.perform parse .isSet =
    (history.any fun access => (access.table? parse).isSome, store)
  lasting : store.table ≠ none → ∀ more, store.after parse more = store
  get : ∀ {α : Type} (read : Value → Option α) (otherwise : α) (key : String),
    store.perform parse (.get read otherwise key) =
      (((store.table.bind (·.lookup key)).bind read).getD otherwise, store)

private theorem eq_of_table_eq {store other : Store} (h : store.table = other.table) :
    store = other := by
  cases store
  cases other
  exact congrArg Store.mk h

/-- Settings are written once, whatever reads the texts: by the first source that can be read, be
it faulty or missing. -/
theorem written_once (parse : String → Option Table) (hempty : (parse "").getD [] = [])
    (history : List Access) : (after parse {} history).WrittenOnce parse history := by
  have htable : (after parse {} history).table = history.findSome? (Access.table? parse) := by
    simp [after_table hempty]
  exact
    { table := htable
      unreadable := fun source => perform_setup_of_unreadable
      first := fun source table hunset h => perform_setup_of_unset hempty h hunset
      later := fun source hset h => perform_setup_of_set hempty h hset
      isSet := by
        refine Prod.ext ?_ rfl
        show (after parse {} history).table.isSome = _
        rw [htable, Bool.eq_iff_iff, List.findSome?_isSome_iff, List.any_eq_true]
      lasting := fun hset more => by
        obtain ⟨table, h⟩ := Option.ne_none_iff_exists'.mp hset
        exact eq_of_table_eq (by rw [after_table hempty, h, Option.some_or])
      get := fun read otherwise key => Prod.ext (get_fst read otherwise key) rfl }

/-- A file that is no text leaves the settings open, and of the texts behind it the first one is
kept. -/
theorem written_once_of_toml :
    let history : List Access := [.setup (.file ⟨#[0xff]⟩), .isSet,
      .setup (.text "[parser]\nduplicate_sections = 'report'"), .setup .missingFile]
    let store := after Toml.parse? {} history
    (Toml.parse? "").getD [] = [] ∧ store.WrittenOnce Toml.parse? history ∧
      store.parserOptions.1 = { duplicates := .report } :=
  ⟨rfl, written_once Toml.parse? rfl _, by decide +kernel⟩

/-- Options are refused as a whole where one of them is of the wrong type. -/
example :
    (after Toml.parse? {} [.setup
      (.text "[parser]\nduplicate_sections = 'report'\nstrict_section_indentation = 1")]
    ).parserOptions.1 = {} := by
  decide +kernel

end Store
end Dialogue.Settings
