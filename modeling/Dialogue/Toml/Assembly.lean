import Dialogue.Settings.Value
import Dialogue.Toml.Lexical

/-! Building tables from the keys and headers of a TOML document. What has been
written about a table decides what may still be added to it. -/
namespace Dialogue.Toml

open Settings (Value)

inductive Origin
  /-- Named on the way to a table with a header. -/
  | passed
  /-- Made by a dotted key. -/
  | dotted
  /-- Made by a header of its own. -/
  | declared
  deriving Repr, DecidableEq

/-- Values are closed: an array or table that was written as one takes no more
entries. `tables` holds the elements of an array of tables, the latest first. -/
inductive Item
  | value (value : Value)
  | table (origin : Origin) (entries : List (String × Item))
  | tables (elements : List (List (String × Item)))

abbrev Entries := List (String × Item)

mutual

def Item.toValue : Item → Value
  | .value value => value
  | .table _ entries => .table (entriesToTable entries)
  | .tables elements => .array (elementsToValues elements).reverse

def entriesToTable : List (String × Item) → List (String × Value)
  | [] => []
  | (key, item) :: rest => (key, item.toValue) :: entriesToTable rest

def elementsToValues : List (List (String × Item)) → List Value
  | [] => []
  | entries :: rest => .table (entriesToTable entries) :: elementsToValues rest

end

namespace Entries

def replace (key : String) (item : Item) : Entries → Entries
  | [] => []
  | (k, old) :: rest => if k = key then (k, item) :: rest else (k, old) :: replace key item rest

/-- Changes the table at the end of a path, which also learns how that table came
to be. Missing tables are made on the way. An array of tables stands for its
latest element; a dotted path enters no table that has a header. -/
def descend (dotted : Bool) (change : Origin → Entries → Option Entries) :
    List String → Origin → Entries → Option Entries
  | [], origin, entries => change origin entries
  | key :: path, _, entries =>
    match entries.lookup key with
    | none => do
      let origin := if dotted then .dotted else .passed
      let inner ← descend dotted change path origin []
      some (entries ++ [(key, .table origin inner)])
    | some (.table origin inner) =>
      if dotted ∧ origin = .declared then none
      else do
        let inner ← descend dotted change path origin inner
        some (replace key (.table origin inner) entries)
    | some (.tables (inner :: earlier)) => do
      let inner ← descend dotted change path .declared inner
      some (replace key (.tables (inner :: earlier)) entries)
    | _ => none

/-- Adds a value under a name that is not taken. A dotted key adds to tables that
dotted keys made, and to no others. -/
def put (key : Key) (value : Value) (entries : Entries) : Option Entries :=
  descend true
    (fun origin entries =>
      if (origin = .dotted ↔ key.path ≠ []) ∧ (entries.lookup key.last).isNone then
        some (entries ++ [(key.last, .value value)])
      else none)
    key.path .declared entries

/-- Declares a table. It may exist already if it was only passed so far. -/
def openTable (key : Key) (entries : Entries) : Option Entries :=
  descend false
    (fun _ entries =>
      match entries.lookup key.last with
      | none => some (entries ++ [(key.last, .table .declared [])])
      | some (.table .passed inner) => some (replace key.last (.table .declared inner) entries)
      | _ => none)
    key.path .declared entries

def openElement (key : Key) (entries : Entries) : Option Entries :=
  descend false
    (fun _ entries =>
      match entries.lookup key.last with
      | none => some (entries ++ [(key.last, .tables [[]])])
      | some (.tables elements) => some (replace key.last (.tables ([] :: elements)) entries)
      | _ => none)
    key.path .declared entries

end Entries

def inlineTable? (pairs : List (Key × Value)) : Option Value :=
  (pairs.foldlM (fun entries pair => Entries.put pair.1 pair.2 entries) []).map fun entries =>
    .table (entriesToTable entries)

end Dialogue.Toml
