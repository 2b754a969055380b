import Dialogue.Settings.Value
import Dialogue.Toml.Date
import Dialogue.Toml.Number

/-! What a document may say, once it is read: integers and fractions have to fit into
sixty-four bits, and a table may stand for a date. -/
namespace Dialogue.Toml

open Settings (Value Table)

/-- A table that holds this key, and no other before it in alphabetical order, is the
date that the key leads to. -/
def dateKey : String := "$__toml_private_datetime"

def dateContent? (entries : Table) : Option Value :=
  if entries.any (·.1 < dateKey) then none else entries.lookup dateKey

def dateOf? : Value → Option Value
  | .string text => (date? text.toList).map fun chars => .date (String.ofList chars)
  | _ => none

mutual

/-- A value whose parts all fit. The other entries of a date are not looked at. -/
def admitted? : Value → Option Value
  | .integer value => if inRange value then some (.integer value) else none
  | .fraction literal => if isBounded literal.toList then some (.fraction literal) else none
  | .array items => (itemsAdmitted? items).map .array
  | .table entries =>
    match dateContent? entries with
    | some content => dateOf? content
    | none => (entriesAdmitted? entries).map .table
  | value => some value

def itemsAdmitted? : List Value → Option (List Value)
  | [] => some []
  | item :: rest => do
    let item ← admitted? item
    let rest ← itemsAdmitted? rest
    some (item :: rest)

/-- At the top of a document no key is taken for a date. -/
def entriesAdmitted? : List (String × Value) → Option (List (String × Value))
  | [] => some []
  | (key, value) :: rest => do
    let value ← admitted? value
    let rest ← entriesAdmitted? rest
    some ((key, value) :: rest)

end

end Dialogue.Toml
