import Dialogue.Tree.Walk
import Dialogue.Parse.Journal

/-! Review of the commands. The checker sees every command once, against the
order of the walk: a command comes after its body and after all that follows it.
Rejected commands are cut off together with their bodies. -/
namespace Dialogue

/-- The commands rejected so far, the latest first. -/
structure Review where
  rejected : List NodeId := []
  journal : Journal

namespace Review

def check (checker : Checker) (tree : Tree) (review : Review) (id : NodeId) : Review :=
  match tree.get? id with
  | some ⟨span, .block (.command text) _⟩ =>
    match review.journal.ask checker (.command text) with
    | (none, journal) => { review with journal }
    | (some rejection, journal) =>
      { rejected := id :: review.rejected
        journal := journal.note (.rejected span.line rejection.reason) |>.report span.line
          span.column (.rejectedCommand rejection) }
  | _ => review

def ofTree (checker : Checker) (tree : Tree) (journal : Journal) : Review :=
  tree.walk.reverse.foldl (check checker tree) { journal }

end Review

/-- Takes nodes out of the blocks that hold them. They stay in the array. -/
def Tree.detach (tree : Tree) (ids : List NodeId) : Tree :=
  if ids.isEmpty then tree
  else { tree with nodes := tree.nodes.map (Node.mapChildren (·.filter (· ∉ ids))) }

@[simp] theorem Tree.detach_nil (tree : Tree) : tree.detach [] = tree := rfl

@[simp] theorem Tree.size_detach (tree : Tree) (ids : List NodeId) :
    (tree.detach ids).size = tree.size := by
  unfold detach
  split <;> simp [size]

@[simp] theorem Tree.names_detach (tree : Tree) (ids : List NodeId) :
    (tree.detach ids).names = tree.names := by
  unfold detach
  split <;> rfl

end Dialogue
