import Dialogue.Tree.Node

/-! Dialogue trees: an array of nodes, addressed by number, and a table of the
declared section names. Nodes that were cut off stay in the array. -/
namespace Dialogue

/-- `names` holds a pair for each declared name, in order of declaration. -/
structure Tree where
  nodes : Array Node
  names : List (String × NodeId)
  deriving Repr, DecidableEq

namespace Tree

def root : NodeId := 0

def empty : Tree := ⟨#[⟨Span.single 0 0, .block (.scope none) []⟩], []⟩

def size (tree : Tree) : Nat := tree.nodes.size

def get? (tree : Tree) (id : NodeId) : Option Node := tree.nodes[id]?

def children (tree : Tree) (id : NodeId) : List NodeId :=
  match tree.get? id with
  | some node => node.children
  | none => []

def isScope (tree : Tree) (id : NodeId) : Bool := (tree.get? id).any Node.isScope

def isChoice (tree : Tree) (id : NodeId) : Bool := (tree.get? id).any Node.isChoice

def lineOf (tree : Tree) (id : NodeId) : Nat :=
  match tree.get? id with
  | some node => node.span.line
  | none => 0

def find? (tree : Tree) (key : String) : Option NodeId := tree.names.lookup key

def scopes (tree : Tree) : List NodeId := (tree.children root).filter tree.isScope

def isEmpty (tree : Tree) : Bool := (tree.children root).isEmpty

def modify (tree : Tree) (id : NodeId) (f : Node → Node) : Tree :=
  { tree with nodes := tree.nodes.modify id f }

def push (tree : Tree) (parent : NodeId) (node : Node) : Tree :=
  { tree with nodes := tree.nodes.push node }.modify parent
    (Node.mapChildren (· ++ [tree.size]))

def close (tree : Tree) (line : Nat) (id : NodeId) : Tree := tree.modify id (Node.stoppedAt line)

def declare (tree : Tree) (key : String) (id : NodeId) : Tree :=
  { tree with names := tree.names ++ [(key, id)] }

@[simp] theorem size_empty : empty.size = 1 := rfl

@[simp] theorem size_modify (tree : Tree) (id : NodeId) (f : Node → Node) :
    (tree.modify id f).size = tree.size := by
  simp [modify, size]

@[simp] theorem size_push (tree : Tree) (parent : NodeId) (node : Node) :
    (tree.push parent node).size = tree.size + 1 := by
  simp [push, size, modify]

@[simp] theorem size_close (tree : Tree) (line : Nat) (id : NodeId) :
    (tree.close line id).size = tree.size := size_modify ..

@[simp] theorem size_declare (tree : Tree) (key : String) (id : NodeId) :
    (tree.declare key id).size = tree.size := rfl

@[simp] theorem names_modify (tree : Tree) (id : NodeId) (f : Node → Node) :
    (tree.modify id f).names = tree.names := rfl

@[simp] theorem names_push (tree : Tree) (parent : NodeId) (node : Node) :
    (tree.push parent node).names = tree.names := rfl

@[simp] theorem names_close (tree : Tree) (line : Nat) (id : NodeId) :
    (tree.close line id).names = tree.names := rfl

theorem isScope_of_isChoice {tree : Tree} {id : NodeId} (h : tree.isChoice id = true) :
    tree.isScope id = false := by
  unfold isChoice at h
  unfold isScope
  cases hnode : tree.get? id with
  | none => rfl
  | some node =>
    obtain ⟨span, content⟩ := node
    rw [hnode, Option.any_some] at h
    cases content with
    | leaf leaf => rfl
    | block block body => cases block <;> first | rfl | contradiction

theorem get?_modify (tree : Tree) (id other : NodeId) (f : Node → Node) :
    (tree.modify id f).get? other =
      if id = other then (tree.get? other).map f else tree.get? other := by
  simp [modify, get?, Array.getElem?_modify]

@[simp] theorem get?_declare (tree : Tree) (key : String) (id other : NodeId) :
    (tree.declare key id).get? other = tree.get? other := rfl

theorem get?_push_size {tree : Tree} {parent : NodeId} (h : parent < tree.size) (node : Node) :
    (tree.push parent node).get? tree.size = some node := by
  rw [push, get?_modify, if_neg (Nat.ne_of_lt h)]
  simp [get?, size]

theorem get?_push_of_lt {tree : Tree} {parent id : NodeId} (h : id < tree.size) (node : Node) :
    (tree.push parent node).get? id =
      if parent = id then (tree.get? id).map (Node.mapChildren (· ++ [tree.size]))
      else tree.get? id := by
  have hne : id ≠ tree.nodes.size := Nat.ne_of_lt h
  have hget : (tree.nodes.push node)[id]? = tree.nodes[id]? := by
    rw [Array.getElem?_push, if_neg hne]
  rw [push, get?_modify]
  simp only [get?, hget]

end Tree
end Dialogue
