import Dialogue.Diagnostic
import Dialogue.Log

/-! What a parse writes down beside the tree. -/
namespace Dialogue

structure Journal where
  diagnostics : Array Diagnostic := #[]
  asked : Array Query := #[]
  log : Array Notice := #[]

namespace Journal

def report (journal : Journal) (line column : Nat) (cause : Cause) : Journal :=
  { journal with diagnostics := journal.diagnostics.push ⟨line, column, cause⟩ }

def note (journal : Journal) (notice : Notice) : Journal :=
  { journal with log := journal.log.push notice }

def ask (journal : Journal) (checker : Checker) (query : Query) : Option Rejection × Journal :=
  (checker.rejects journal.asked query, { journal with asked := journal.asked.push query })

end Journal
end Dialogue
