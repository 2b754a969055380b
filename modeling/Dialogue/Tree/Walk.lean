import Dialogue.Tree.Basic

/-! Pre-order walk over the nodes that hang on the root. -/
namespace Dialogue.Tree

/-- Nodes below `id`, parents before children, down to a number of levels. -/
def below (tree : Tree) : Nat → NodeId → List NodeId
  | 0, _ => []
  | levels + 1, id => (tree.children id).flatMap fun child => child :: below tree levels child

/-- Every node below the root in pre-order. No branch is longer than the tree is large. -/
def walk (tree : Tree) : List NodeId := tree.below tree.size root

@[simp] theorem walk_empty : empty.walk = [] := rfl

end Dialogue.Tree
