import Dialogue.Diagnostic
import Dialogue.Tree.Walk

/-! Parsed scripts. -/
namespace Dialogue

structure Script where
  tree : Tree
  diagnostics : List Diagnostic
  lineCount : Nat
  deriving Repr, DecidableEq

namespace Script

def errors (script : Script) : List Diagnostic := script.diagnostics.filter Diagnostic.isError

def warnings (script : Script) : List Diagnostic := script.diagnostics.filter (! ·.isError)

def hasErrors (script : Script) : Bool := script.diagnostics.any Diagnostic.isError

/-- For each line of the script the node that starts on it. -/
def lineIndex (script : Script) : Array (Option NodeId) :=
  script.tree.walk.foldl (fun index id => index.setIfInBounds (script.tree.lineOf id) (some id))
    (Array.replicate script.lineCount none)

end Script
end Dialogue
