import Dialogue.Tree.Basic

/-! Trees under construction: a tree and the blocks that are still open. New
nodes go into the innermost open block; closing a block fixes where its span stops. -/
namespace Dialogue

/-- `opened` lists the open blocks, innermost first. -/
structure Draft where
  tree : Tree
  opened : List NodeId
  deriving Repr, DecidableEq

namespace Draft

def empty : Draft := ⟨.empty, [Tree.root]⟩

def innermost (draft : Draft) : NodeId := draft.opened.headD Tree.root

def addLeaf (draft : Draft) (span : Span) (leaf : Leaf) : Draft :=
  { draft with tree := draft.tree.push draft.innermost ⟨span, .leaf leaf⟩ }

def addBlock (draft : Draft) (span : Span) (block : Block) : Draft :=
  ⟨draft.tree.push draft.innermost ⟨span, .block block []⟩, draft.tree.size :: draft.opened⟩

def closeAll (draft : Draft) (line : Nat) : Draft :=
  ⟨draft.opened.foldl (Tree.close · line ·) draft.tree, []⟩

/-- Closes blocks until `depth` of them are open. Sections are not closed this
way: if the innermost block is one, closing stops short and the answer is `false`. -/
def dedent (depth line : Nat) (tree : Tree) : List NodeId → Bool × Draft
  | [] => (true, ⟨tree, []⟩)
  | id :: below =>
    if below.length < depth then (true, ⟨tree, id :: below⟩)
    else if tree.isScope id then (false, ⟨tree, id :: below⟩)
    else dedent depth line (tree.close line id) below

def addScope (draft : Draft) (span : Span) (key : String) : Draft :=
  let tree := (draft.closeAll span.line).tree
  ⟨tree.push Tree.root ⟨span, .block (.scope (some key)) []⟩, [tree.size]⟩

end Draft

def Node.isBareCommand : Node → Bool
  | ⟨_, .block (.command _) []⟩ => true
  | _ => false

def Node.extend (line : Nat) (text : String) : Node → Node
  | ⟨span, .block (.command first) children⟩ =>
    ⟨{ span with stop := line + 1 }, .block (.command (first ++ "\n" ++ text)) children⟩
  | node => node

namespace Draft

/-- The last child of the innermost open block, if it is a command without a body. -/
def extensible? (draft : Draft) : Option NodeId :=
  (draft.tree.children draft.innermost).getLast?.filter fun id =>
    (draft.tree.get? id).any Node.isBareCommand

def extend (draft : Draft) (id : NodeId) (line : Nat) (text : String) : Draft :=
  ⟨draft.tree.modify id (Node.extend line text), id :: draft.opened⟩

end Draft
end Dialogue
