import Dialogue.Script
import Dialogue.Text.Lines
import Dialogue.Parse.Link
import Dialogue.Parse.Review

/-! Parsing a whole script: the lines are read one by one, then the jumps are
resolved and the commands reviewed. -/
namespace Dialogue

structure Outcome where
  result : Except ParseError Script
  asked : Array Query
  log : Array Notice

def Outcome.agrees (a b : Outcome) : Bool :=
  match a.result, b.result with
  | .ok a, .ok b => a = b
  | .error a, .error b => a = b
  | _, _ => false

@[simp] theorem Outcome.agrees_iff {a b : Outcome} : a.agrees b = true ↔ a.result = b.result := by
  unfold agrees
  cases a.result <;> cases b.result <;> simp

namespace Progress

def closed (progress : Progress) : Tree :=
  (progress.draft.closeAll progress.lineCount).tree.close progress.lineCount Tree.root

def linked (progress : Progress) : Tree := progress.links.foldl Link.resolve progress.closed

def linkJournal (progress : Progress) : Journal :=
  { progress.journal with
    diagnostics := progress.journal.diagnostics ++
      progress.links.filterMap (Link.complaint? progress.closed) }

def finish (checker : Checker) (progress : Progress) : Outcome :=
  match progress.status with
  | .failed error => ⟨.error error, progress.journal.asked, progress.journal.log⟩
  | _ =>
    let tree := progress.linked
    let review := Review.ofTree checker tree progress.linkJournal
    let { diagnostics, asked, log } := review.journal
    { result := .ok ⟨tree.detach review.rejected, diagnostics.toList, progress.lineCount⟩
      asked
      log := log.push (.parsed progress.lineCount tree.size diagnostics.size) }

end Progress

def parseLines (options : Options) (checker : Checker) (lines : List String) : Outcome :=
  (Progress.read options checker lines).finish checker

def parse (options : Options) (checker : Checker) (source : String) : Outcome :=
  parseLines options checker (Text.lines source)

end Dialogue
