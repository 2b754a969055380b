import Dialogue.Proofs.Grammar.Document
import Dialogue.Proofs.Parse.Lenient

/-! Trees that are the same but for the places of their nodes in a script. -/
namespace Dialogue

theorem Content.eq_of_bare {content other : Content} (hbare : content.bare = other.bare)
    (hchildren : content.children = other.children)
    (htarget : ∀ key, content.bare = .leaf (.jump key none) → content.target? = other.target?) :
    content = other := by
  cases content with
  | block b children =>
    cases other with
    | leaf => contradiction
    | block b' children' =>
      injection hbare with hblock
      rw [hblock, show children = children' from hchildren]
  | leaf l =>
    cases other with
    | block => contradiction
    | leaf l' =>
      injection hbare with hleaf
      cases l <;> cases l' <;> simp_all [Leaf.unaimed, Content.target?, Content.bare]

namespace Tree

/-- The same tree, up to the spans of the nodes. -/
structure Agrees (tree other : Tree) : Prop where
  contents : tree.nodes.map Node.content = other.nodes.map Node.content
  names : tree.names = other.names

/-- The levels and labels of the nodes tell all of a tree but the spans. -/
theorem agrees_of_shape {tree other : Tree} {entries others : List Entry}
    (h : tree.Spells entries) (hother : other.Spells others)
    (hshape : Sketch.shape entries = Sketch.shape others) : tree.Agrees other := by
  have hlabels := congrFun (Sketch.labelAt?_congr hshape)
  have hsame : tree.names = other.names := by
    rw [h.names, hother.names, Sketch.names, Sketch.names, Sketch.keys_congr hshape]
  have hsize : tree.size = other.size := by
    have hlength := congrArg List.length hshape
    simp only [Sketch.shape, List.length_map] at hlength
    rw [h.drawn.size_eq, hother.drawn.size_eq, hlength]
  refine ⟨Array.ext_getElem? fun id => ?_, hsame⟩
  have hlabel : tree.label? id = other.label? id := by
    rw [h.drawn.label?, hother.drawn.label?]
    exact hlabels id
  have hchildren : tree.children id = other.children id := by
    refine eq_of_sorted (h.drawn.shaped.sorted id) (hother.drawn.shaped.sorted id) fun child => ?_
    rw [h.drawn.shaped.mem_children_iff, hother.drawn.shaped.mem_children_iff, hsize,
      Sketch.levelAt_congr hshape]
  have htarget (key : String) (hjump : tree.label? id = some (.leaf (.jump key none))) :
      tree.target? id = other.target? id := by
    rw [h.drawn.label?] at hjump
    rw [h.target? id key hjump, hother.target? id key ((hlabels id).symm.trans hjump), find?, find?,
      hsame]
  rw [Array.getElem?_map, Array.getElem?_map]
  show (tree.get? id).map Node.content = (other.get? id).map Node.content
  rw [label?_eq, label?_eq] at hlabel
  rw [children_eq, children_eq] at hchildren
  rw [label?_eq] at htarget
  unfold target? at htarget
  cases hnode : tree.get? id with
  | none =>
    rw [hnode, Option.map_none] at hlabel
    rw [Option.map_eq_none_iff.mp hlabel.symm]
  | some node =>
    rw [hnode, Option.map_some] at hlabel
    obtain ⟨found, hfound, hbare⟩ := Option.map_eq_some_iff.mp hlabel.symm
    rw [hnode, hfound] at hchildren htarget
    rw [hfound, Option.map_some, Option.map_some]
    refine congrArg some (Content.eq_of_bare hbare.symm hchildren fun key hjump => ?_)
    exact htarget key (congrArg some hjump)

end Tree
end Dialogue
