import Dialogue.Parse.Progress

/-! Targets of jumps. All sections are known by now, so a jump may lead forward. -/
namespace Dialogue

def Node.aim (target : NodeId) : Node → Node
  | ⟨span, .leaf (.jump key _)⟩ => ⟨span, .leaf (.jump key (some target))⟩
  | node => node

namespace Link

def resolve (tree : Tree) (link : Link) : Tree :=
  match tree.find? link.key with
  | some target => tree.modify link.node (Node.aim target)
  | none => tree

def complaint? (tree : Tree) (link : Link) : Option Diagnostic :=
  match tree.find? link.key with
  | some _ => none
  | none => some ⟨link.line, link.column, .unknownScope link.key⟩

@[simp] theorem names_resolve (tree : Tree) (link : Link) :
    (link.resolve tree).names = tree.names := by
  unfold resolve
  split <;> rfl

@[simp] theorem size_resolve (tree : Tree) (link : Link) :
    (link.resolve tree).size = tree.size := by
  unfold resolve
  split <;> simp

end Link
end Dialogue
