import Dialogue.Options
import Dialogue.Settings.Value

/-! Reading parser options from settings. Formats differ in how they write a name
with nothing attached to it, so each reader is told what counts as nothing. -/
namespace Dialogue

open Settings (Value)

def DuplicatePolicy.name : DuplicatePolicy → String
  | fail => "fail"
  | report => "report"

def DuplicatePolicy.ofName? (name : String) : Option DuplicatePolicy :=
  if name = "fail" then some .fail else if name = "report" then some .report else none

@[simp] theorem DuplicatePolicy.ofName?_name (policy : DuplicatePolicy) :
    ofName? policy.name = some policy := by
  cases policy <;> rfl

/-- A policy is its name, or a table with the name as its only key and nothing in it. -/
def DuplicatePolicy.ofValue? (vacant : Value → Bool) : Value → Option DuplicatePolicy
  | .string name => ofName? name
  | .table [(name, content)] => if vacant content then ofName? name else none
  | _ => none

namespace Options

def field? (read : Value → Option α) (otherwise : α) : Option Value → Option α
  | some value => read value
  | none => some otherwise

def ofFields? (vacant : Value → Bool) (duplicates strict : Option Value) : Option Options := do
  let duplicates ← field? (DuplicatePolicy.ofValue? vacant) .fail duplicates
  let strictIndentation ← field? Value.toBool? false strict
  some { duplicates, strictIndentation }

/-- Options are a table with named fields, of which others are ignored, or an
array with the fields in order. -/
def ofValue? (vacant : Value → Bool) : Value → Option Options
  | .table entries =>
    ofFields? vacant (entries.lookup "duplicate_sections")
      (entries.lookup "strict_section_indentation")
  | .array [] => some {}
  | .array [duplicates] => ofFields? vacant (some duplicates) none
  | .array [duplicates, strict] => ofFields? vacant (some duplicates) (some strict)
  | _ => none

end Options
end Dialogue
