import Mathlib.Data.List.Forall2
import Dialogue.Proofs.Tree.Mark

/-! Paired nodes. One relation says which nodes of two trees stand for each other, another one
which siblings may be left to play on both sides at a time. -/
namespace Dialogue

structure Pairing where
  node : NodeId → NodeId → Prop
  rest : List NodeId → List NodeId → Prop

namespace Pairing

variable {pairing : Pairing} {content image : Content}

/-- What paired nodes are. Only a section may hold something on one side alone. -/
inductive Contents (pairing : Pairing) : Content → Content → Prop
  | block (block : Block) {ids others : List NodeId} (hchildren : pairing.rest ids others)
      (hempty : block.isScope = false → (ids = [] ↔ others = [])) :
      Contents pairing (.block block ids) (.block block others)
  | jump (key : String) {target other : Option NodeId}
      (htarget : Option.Rel pairing.node target other) :
      Contents pairing (.leaf (.jump key target)) (.leaf (.jump key other))
  | line (text : String) : Contents pairing (.leaf (.line text)) (.leaf (.line text))
  | comment (text : String) : Contents pairing (.leaf (.comment text)) (.leaf (.comment text))
  | back : Contents pairing (.leaf .back) (.leaf .back)

theorem Contents.of_bare (hbare : image.bare = content.bare)
    (hchildren : pairing.rest content.children image.children)
    (hempty : content.isScope = false → (content.children = [] ↔ image.children = []))
    (htarget : ∀ key target aim, content = .leaf (.jump key target) →
      image = .leaf (.jump key aim) → Option.Rel pairing.node target aim) :
    pairing.Contents content image := by
  cases content with
  | block block ids =>
    cases image with
    | leaf => contradiction
    | block found others =>
      obtain rfl : found = block := (Content.block.inj hbare).1
      exact .block found hchildren hempty
  | leaf leaf =>
    cases image with
    | block => contradiction
    | leaf found =>
      have hleaf := Content.leaf.inj hbare
      cases leaf with
      | jump key target =>
        cases found with
        | jump other aim =>
          obtain rfl := (Leaf.jump.inj hleaf).1
          exact .jump other (htarget other target aim rfl rfl)
        | _ => contradiction
      | line text =>
        cases found <;> cases hleaf
        exact .line text
      | comment text =>
        cases found <;> cases hleaf
        exact .comment text
      | back =>
        cases found <;> cases hleaf
        exact .back

namespace Contents

private theorem isScope_eq (h : pairing.Contents content image) :
    content.isScope = image.isScope := by
  cases h <;> rfl

private theorem isChoice_eq (h : pairing.Contents content image) :
    content.isChoice = image.isChoice := by
  cases h <;> rfl

theorem condition?_eq (h : pairing.Contents content image) :
    content.condition? = image.condition? := by
  cases h with
  | block block => cases block <;> rfl
  | _ => rfl

end Contents

/-- Siblings that begin alike. Nothing behind a section is ever played. -/
inductive Ready (pairing : Pairing) (first second : Tree) : List NodeId → List NodeId → Prop
  | done : Ready pairing first second [] []
  | halt {id other : NodeId} {ids others : List NodeId} (hfirst : first.isScope id = true)
      (hsecond : second.isScope other = true) :
      Ready pairing first second (id :: ids) (other :: others)
  | next {id other : NodeId} {ids others : List NodeId} (hnode : pairing.node id other)
      (hrest : pairing.rest ids others)
      (hchoices : List.Forall₂ pairing.node ((id :: ids).takeWhile first.isChoice)
        ((other :: others).takeWhile second.isChoice))
      (hbehind : pairing.rest ((id :: ids).drop ((id :: ids).takeWhile first.isChoice).length)
        ((other :: others).drop ((other :: others).takeWhile second.isChoice).length)) :
      Ready pairing first second (id :: ids) (other :: others)

end Pairing

namespace Tree

/-- Trees in which paired nodes are alike, and in which names lead to paired nodes. -/
structure Paired (first second : Tree) (pairing : Pairing) : Prop where
  nil : pairing.rest [] []
  node : ∀ {id other}, pairing.node id other → Option.Rel
    (fun node twin => pairing.Contents node.content twin.content) (first.get? id)
    (second.get? other)
  find? : ∀ key, Option.Rel pairing.node (first.find? key) (second.find? key)

namespace Paired

variable {pairing : Pairing} {first second : Tree} {id other : NodeId}

theorem cases_node (h : first.Paired second pairing) (hnode : pairing.node id other) :
    (first.get? id = none ∧ second.get? other = none) ∨
      ∃ node twin, first.get? id = some node ∧ second.get? other = some twin ∧
        pairing.Contents node.content twin.content := by
  have hrel := h.node hnode
  generalize first.get? id = found at hrel ⊢
  generalize second.get? other = image at hrel ⊢
  cases hrel with
  | none => exact .inl ⟨rfl, rfl⟩
  | some hsame => exact .inr ⟨_, _, rfl, rfl, hsame⟩

theorem isScope_eq (h : first.Paired second pairing) (hnode : pairing.node id other) :
    first.isScope id = second.isScope other := by
  rw [Tree.isScope, Tree.isScope]
  rcases h.cases_node hnode with ⟨hone, htwo⟩ | ⟨node, twin, hone, htwo, hsame⟩
  · rw [hone, htwo]
  · rw [hone, htwo]
    exact hsame.isScope_eq

theorem isChoice_eq (h : first.Paired second pairing) (hnode : pairing.node id other) :
    first.isChoice id = second.isChoice other := by
  rw [Tree.isChoice, Tree.isChoice]
  rcases h.cases_node hnode with ⟨hone, htwo⟩ | ⟨node, twin, hone, htwo, hsame⟩
  · rw [hone, htwo]
  · rw [hone, htwo]
    exact hsame.isChoice_eq

theorem children (h : first.Paired second pairing) (hnode : pairing.node id other) :
    pairing.rest (first.children id) (second.children other) := by
  rw [Tree.children, Tree.children]
  rcases h.cases_node hnode with ⟨hone, htwo⟩ | ⟨node, twin, hone, htwo, hsame⟩
  · rw [hone, htwo]
    exact h.nil
  · rw [hone, htwo]
    show pairing.rest node.content.children twin.content.children
    generalize node.content = content at hsame ⊢
    generalize twin.content = image at hsame ⊢
    cases hsame with
    | block block hchildren => exact hchildren
    | _ => exact h.nil

end Paired
end Tree
end Dialogue
