/-! Values of settings, and reading them as a wanted type. A value that does not
fit is refused as a whole. -/
namespace Dialogue.Settings

/-- Numbers with a fraction and dates are kept as text. -/
inductive Value
  | null
  | boolean (value : Bool)
  | integer (value : Int)
  | fraction (literal : String)
  | string (value : String)
  | date (text : String)
  | array (items : List Value)
  | table (entries : List (String × Value))

instance : Inhabited Value := ⟨.null⟩

abbrev Table := List (String × Value)

namespace Value

def toBool? : Value → Option Bool
  | boolean value => some value
  | _ => none

def toInt? : Value → Option Int
  | integer value => some value
  | _ => none

def toByte? : Value → Option UInt8
  | integer value => if 0 ≤ value ∧ value < 256 then some (UInt8.ofNat value.toNat) else none
  | _ => none

def toText? : Value → Option String
  | string value => some value
  | date text => some text
  | _ => none

def toTexts? : Value → Option (List String)
  | array items => items.mapM toText?
  | _ => none

/-- Nothing in it, for formats that write this as a null. -/
def isNull : Value → Bool
  | null => true
  | _ => false

/-- Nothing in it, for formats that write this as an empty array or table. -/
def isEmptyGroup : Value → Bool
  | array items => items.isEmpty
  | table entries => entries.isEmpty
  | _ => false

end Value
end Dialogue.Settings
