import Dialogue.Parse.Link
import Dialogue.Parse.Review

/-! Marks: where a node starts and what it is by itself, without its children and without
the target that a jump is given later. The operations on trees are told apart by what they
do to the marks and to the lists of children. -/
namespace Dialogue

def Leaf.unaimed : Leaf → Leaf
  | jump key _ => jump key none
  | leaf => leaf

def Content.bare : Content → Content
  | block b _ => block b []
  | leaf l => leaf l.unaimed

def Content.isBlock : Content → Bool
  | block _ _ => true
  | leaf _ => false

@[simp] theorem Content.bare_mapChildren (f : List NodeId → List NodeId) (content : Content) :
    (content.mapChildren f).bare = content.bare := by
  cases content <;> rfl

@[simp] theorem Content.isScope_bare (content : Content) : content.bare.isScope = content.isScope := by
  cases content <;> rfl

@[simp] theorem Content.isChoice_bare (content : Content) :
    content.bare.isChoice = content.isChoice := by
  cases content <;> rfl

def Content.target? : Content → Option NodeId
  | leaf (.jump _ target) => target
  | _ => none

@[simp] theorem Content.target?_mapChildren (f : List NodeId → List NodeId) (content : Content) :
    (content.mapChildren f).target? = content.target? := by
  cases content <;> rfl

structure Mark where
  line : Nat
  column : Nat
  label : Content
  deriving Repr, DecidableEq

def Node.mark (node : Node) : Mark := ⟨node.span.line, node.span.column, node.content.bare⟩

namespace Tree

def mark? (tree : Tree) (id : NodeId) : Option Mark := (tree.get? id).map Node.mark

def label? (tree : Tree) (id : NodeId) : Option Content := (tree.mark? id).map Mark.label

def isBlock (tree : Tree) (id : NodeId) : Bool := (tree.label? id).any Content.isBlock

def target? (tree : Tree) (id : NodeId) : Option NodeId :=
  (tree.get? id).bind (·.content.target?)

theorem label?_eq (tree : Tree) (id : NodeId) :
    tree.label? id = (tree.get? id).map (·.content.bare) := by
  unfold label? mark?
  cases tree.get? id <;> rfl

theorem isScope_eq (tree : Tree) (id : NodeId) :
    tree.isScope id = (tree.label? id).any Content.isScope := by
  rw [label?_eq, isScope]
  cases tree.get? id <;> simp [Node.isScope]

theorem isChoice_eq (tree : Tree) (id : NodeId) :
    tree.isChoice id = (tree.label? id).any Content.isChoice := by
  rw [label?_eq, isChoice]
  cases tree.get? id <;> simp [Node.isChoice]

theorem children_eq (tree : Tree) (id : NodeId) :
    tree.children id = ((tree.get? id).map Node.children).getD [] := by
  unfold children
  cases tree.get? id <;> rfl

theorem lineOf_eq (tree : Tree) (id : NodeId) :
    tree.lineOf id = ((tree.mark? id).map Mark.line).getD 0 := by
  unfold lineOf mark?
  cases tree.get? id <;> rfl

theorem mark?_eq_none_iff {tree : Tree} {id : NodeId} : tree.mark? id = none ↔ tree.size ≤ id := by
  simp [mark?, get?, size]

theorem lt_size_of_mark? {tree : Tree} {id : NodeId} {mark : Mark}
    (h : tree.mark? id = some mark) : id < tree.size := by
  refine Nat.lt_of_not_le fun hle => ?_
  rw [mark?_eq_none_iff.mpr hle] at h
  contradiction

theorem lt_size_of_label? {tree : Tree} {id : NodeId} {label : Content}
    (h : tree.label? id = some label) : id < tree.size := by
  obtain ⟨mark, hmark, _⟩ := Option.map_eq_some_iff.mp h
  exact lt_size_of_mark? hmark

theorem lt_size_of_isBlock {tree : Tree} {id : NodeId} (h : tree.isBlock id = true) :
    id < tree.size := by
  unfold isBlock at h
  cases hlabel : tree.label? id with
  | none => rw [hlabel] at h; contradiction
  | some label => exact lt_size_of_label? hlabel

theorem children_of_not_isBlock {tree : Tree} {id : NodeId} (h : tree.isBlock id = false) :
    tree.children id = [] := by
  rw [isBlock, label?_eq] at h
  unfold children
  cases hnode : tree.get? id with
  | none => rfl
  | some node =>
    obtain ⟨span, content⟩ := node
    rw [hnode] at h
    cases content with
    | block => contradiction
    | leaf => rfl

section Modify

variable {tree : Tree} {id other : NodeId} {f : Node → Node}

theorem mark?_modify (h : ∀ node, (f node).mark = node.mark) :
    (tree.modify id f).mark? other = tree.mark? other := by
  unfold mark?
  rw [get?_modify]
  split
  · cases tree.get? other <;> simp [h]
  · rfl

theorem children_modify (h : ∀ node, (f node).children = node.children) :
    (tree.modify id f).children other = tree.children other := by
  rw [children_eq, children_eq, get?_modify]
  split
  · cases tree.get? other <;> simp [h]
  · rfl

theorem target?_modify (h : ∀ node, (f node).content.target? = node.content.target?) :
    (tree.modify id f).target? other = tree.target? other := by
  rw [target?, target?, get?_modify]
  split
  · cases tree.get? other <;> simp [h]
  · rfl

end Modify

@[simp] theorem mark?_close (tree : Tree) (line : Nat) (id other : NodeId) :
    (tree.close line id).mark? other = tree.mark? other :=
  mark?_modify fun _ => rfl

@[simp] theorem children_close (tree : Tree) (line : Nat) (id other : NodeId) :
    (tree.close line id).children other = tree.children other :=
  children_modify fun _ => rfl

@[simp] theorem target?_close (tree : Tree) (line : Nat) (id other : NodeId) :
    (tree.close line id).target? other = tree.target? other :=
  target?_modify fun _ => rfl

@[simp] theorem target?_declare (tree : Tree) (key : String) (id other : NodeId) :
    (tree.declare key id).target? other = tree.target? other := rfl

@[simp] theorem mark?_declare (tree : Tree) (key : String) (id other : NodeId) :
    (tree.declare key id).mark? other = tree.mark? other := rfl

@[simp] theorem children_declare (tree : Tree) (key : String) (id other : NodeId) :
    (tree.declare key id).children other = tree.children other := rfl

theorem get?_push (tree : Tree) (parent id : NodeId) (node : Node) :
    (tree.push parent node).get? id =
      (if id = tree.size then some node else tree.get? id).map fun old =>
        if parent = id then old.mapChildren (· ++ [tree.size]) else old := by
  have hget : ({ tree with nodes := tree.nodes.push node } : Tree).get? id =
      if id = tree.size then some node else tree.get? id := by
    show (tree.nodes.push node)[id]? = _
    rw [Array.getElem?_push]
    rfl
  rw [push, get?_modify, hget]
  split
  · rfl
  · simp

theorem mark?_push (tree : Tree) (parent id : NodeId) (node : Node) :
    (tree.push parent node).mark? id =
      if id = tree.size then some node.mark else tree.mark? id := by
  have hmark (old : Node) : (if parent = id then old.mapChildren (· ++ [tree.size])
      else old).mark = old.mark := by
    split <;> simp [Node.mapChildren, Node.mark]
  unfold mark?
  rw [get?_push, Option.map_map]
  simp only [Function.comp_def, hmark]
  split <;> rfl

theorem target?_push (tree : Tree) (parent id : NodeId) (node : Node) :
    (tree.push parent node).target? id =
      if id = tree.size then node.content.target? else tree.target? id := by
  have htarget (old : Node) : (if parent = id then old.mapChildren (· ++ [tree.size])
      else old).content.target? = old.content.target? := by
    split <;> simp [Node.mapChildren]
  rw [target?, target?, get?_push, Option.bind_map]
  simp only [Function.comp_def, htarget]
  split <;> rfl

theorem children_push {tree : Tree} {parent : NodeId} {node : Node}
    (hparent : tree.isBlock parent = true) (hnode : node.children = []) (id : NodeId) :
    (tree.push parent node).children id =
      if id = parent then tree.children id ++ [tree.size] else tree.children id := by
  have hlt := lt_size_of_isBlock hparent
  rw [children_eq, children_eq, get?_push]
  by_cases hid : id = tree.size
  · subst hid
    have hne : parent ≠ tree.size := Nat.ne_of_lt hlt
    have hnone : tree.get? tree.size = none := by simp [get?, size]
    simp [hne, hne.symm, hnone, hnode]
  · by_cases heq : id = parent
    · subst heq
      rw [isBlock, label?_eq] at hparent
      cases hget : tree.get? id with
      | none => rw [hget] at hparent; contradiction
      | some old =>
        obtain ⟨span, content⟩ := old
        rw [hget] at hparent
        cases content with
        | block => simp [hid, Node.mapChildren, Node.children, Content.children, Content.mapChildren]
        | leaf => contradiction
    · simp [hid, heq, Ne.symm heq]

end Tree

private theorem Node.mark_aim (target : NodeId) (node : Node) :
    (node.aim target).mark = node.mark := by
  unfold Node.aim
  split <;> rfl

private theorem Node.children_aim (target : NodeId) (node : Node) :
    (node.aim target).children = node.children := by
  unfold Node.aim
  split <;> rfl

namespace Link

@[simp] theorem mark?_resolve (tree : Tree) (link : Link) (id : NodeId) :
    (link.resolve tree).mark? id = tree.mark? id := by
  unfold resolve
  split
  · exact Tree.mark?_modify (Node.mark_aim _)
  · rfl

@[simp] theorem children_resolve (tree : Tree) (link : Link) (id : NodeId) :
    (link.resolve tree).children id = tree.children id := by
  unfold resolve
  split
  · exact Tree.children_modify (Node.children_aim _)
  · rfl

end Link

namespace Tree

theorem get?_detach (tree : Tree) (ids : List NodeId) (other : NodeId) :
    (tree.detach ids).get? other =
      (tree.get? other).map (Node.mapChildren (·.filter (· ∉ ids))) := by
  unfold detach
  split
  next hempty =>
    obtain rfl := List.isEmpty_iff.mp hempty
    have hall : Node.mapChildren (fun x => x.filter (· ∉ ([] : List NodeId))) = id := by
      funext node
      obtain ⟨span, content⟩ := node
      cases content <;> simp [Node.mapChildren, Content.mapChildren]
    rw [hall, Option.map_id]
    rfl
  next => simp [get?]

@[simp] theorem target?_detach (tree : Tree) (ids : List NodeId) (id : NodeId) :
    (tree.detach ids).target? id = tree.target? id := by
  rw [target?, target?, get?_detach]
  cases tree.get? id <;> simp [Node.mapChildren]

@[simp] theorem mark?_detach (tree : Tree) (ids : List NodeId) (id : NodeId) :
    (tree.detach ids).mark? id = tree.mark? id := by
  unfold mark?
  rw [get?_detach]
  cases tree.get? id <;> simp [Node.mapChildren, Node.mark]

theorem children_detach (tree : Tree) (ids : List NodeId) (id : NodeId) :
    (tree.detach ids).children id = (tree.children id).filter (· ∉ ids) := by
  rw [children_eq, children_eq, get?_detach]
  cases tree.get? id with
  | none => rfl
  | some node =>
    obtain ⟨span, content⟩ := node
    cases content <;> simp [Node.children, Content.children, Node.mapChildren, Content.mapChildren]

end Tree
end Dialogue
