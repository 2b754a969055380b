import Dialogue.Settings.Value
import Dialogue.Toml.Date

/-! TOML values written without quotes: truth values, numbers and dates. -/
namespace Dialogue.Toml

open Settings (Value)

def scalar? (text : List Char) : Option Value :=
  if text = ['t', 'r', 'u', 'e'] then some (.boolean true)
  else if text = ['f', 'a', 'l', 's', 'e'] then some (.boolean false)
  else
    match integer? text with
    | some value => some (.integer value)
    | none =>
      if isFraction text then some (.fraction (String.ofList text))
      else (date? text).map fun chars => .date (String.ofList chars)

def isScalarChar (c : Char) : Bool :=
  c.isAlphanum || c = '_' || c = '+' || c = '-' || c = '.' || c = ':'

/-- The unquoted word at the start of a text. A day and a time of day may be
parted by a space. -/
def word (text : List Char) : List Char :=
  let first := text.takeWhile isScalarChar
  match isDay first, text.drop first.length with
  | true, ' ' :: rest =>
    if rest.head?.any (digitsIn 10) then first ++ ' ' :: rest.takeWhile isScalarChar else first
  | _, _ => first

end Dialogue.Toml
