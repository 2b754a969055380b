/-! Options of a parse. -/
namespace Dialogue

inductive DuplicatePolicy
  /-- Give up the parse. -/
  | fail
  /-- Keep the first declaration and report the others. -/
  | report
  deriving Repr, DecidableEq

structure Options where
  duplicates : DuplicatePolicy := .fail
  /-- An indented section line declares nothing. -/
  strictIndentation : Bool := false
  deriving Repr, DecidableEq

instance : Inhabited Options := ⟨{}⟩

end Dialogue
