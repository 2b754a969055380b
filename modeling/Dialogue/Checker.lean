/-! Checkers judge the commands and conditions of a script while it is parsed.
A verdict may depend on all that was asked before, so a checker is a function of
the earlier queries and the present one. -/
namespace Dialogue

structure Rejection where
  reason : String
  deriving Repr, DecidableEq

inductive Query
  | command (text : String)
  | condition (text : String)
  deriving Repr, DecidableEq

def Query.text : Query → String
  | command text => text
  | condition text => text

/-- `rejects earlier query` tells why the query is turned down; none accepts it. -/
structure Checker where
  rejects : Array Query → Query → Option Rejection

def Checker.lenient : Checker := ⟨fun _ _ => none⟩

@[simp] theorem Checker.rejects_lenient (earlier : Array Query) (query : Query) :
    lenient.rejects earlier query = none := rfl

end Dialogue
