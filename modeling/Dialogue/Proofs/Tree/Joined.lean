import Dialogue.Proofs.Tree.Stop

/-! Joined trees. The nodes of one tree stand behind those of another, and only the root is
shared. Whatever is done to the second tree by itself can be done to it behind the first. -/
namespace Dialogue

def Span.moved (count : Nat) (span : Span) : Span :=
  { span with line := count + span.line, stop := count + span.stop }

def Node.moved (shift count : Nat) (node : Node) : Node :=
  ⟨node.span.moved count, node.content.mapChildren (List.map (shift + ·))⟩

private theorem Node.moved_concat (shift count id : Nat) (node : Node) :
    (node.mapChildren (· ++ [id])).moved shift count =
      (node.moved shift count).mapChildren (· ++ [shift + id]) := by
  obtain ⟨span, content⟩ := node
  cases content <;> simp [Node.moved, Node.mapChildren, Content.mapChildren]

@[simp] theorem Node.children_moved (shift count : Nat) (node : Node) :
    (node.moved shift count).children = node.children.map (shift + ·) := by
  obtain ⟨span, content⟩ := node
  cases content <;> rfl

namespace Tree

/-- A tree that is made of two others. -/
structure Joins (shift count : Nat) (front back whole : Tree) : Prop where
  size_front : front.size = shift + 1
  size_back : 0 < back.size
  size_whole : whole.size = shift + back.size
  get?_front : ∀ id, 0 < id → id ≤ shift → whole.get? id = front.get? id
  get?_back : ∀ id, 0 < id → whole.get? (shift + id) = (back.get? id).map (Node.moved shift count)
  children_root : whole.children root = front.children root ++ (back.children root).map (shift + ·)

theorem children_push_of_ne {tree : Tree} {parent id : NodeId} (hne : parent ≠ id)
    (hid : id < tree.size) (node : Node) :
    (tree.push parent node).children id = tree.children id := by
  rw [children_eq, children_eq, get?_push_of_lt hid, if_neg hne]

namespace Joins

variable {shift count line : Nat} {front back whole : Tree} {id parent outer : Nat} {node : Node}

theorem start (hfront : front.size = shift + 1) (hback : back.size = 1)
    (hchildren : back.children root = []) : Joins shift count front back front := by
  have hout {tree : Tree} {id : Nat} (hle : tree.size ≤ id) : tree.get? id = none :=
    Array.getElem?_eq_none hle
  refine ⟨hfront, hback ▸ Nat.one_pos, by rw [hfront, hback], fun _ _ _ => rfl, fun id hpos => ?_,
    ?_⟩
  · rw [hout (show back.size ≤ id by rw [hback]; exact hpos),
      hout (show front.size ≤ shift + id by rw [hfront]; exact Nat.add_le_add_left hpos shift)]
    rfl
  · rw [hchildren, List.map_nil, List.append_nil]

theorem children (h : Joins shift count front back whole) (hpos : 0 < id) :
    whole.children (shift + id) = (back.children id).map (shift + ·) := by
  rw [children_eq, children_eq, h.get?_back id hpos]
  cases back.get? id with
  | none => rfl
  | some node => exact node.children_moved shift count

theorem modify (h : Joins shift count front back whole) (hpos : 0 < id) {f g : Node → Node}
    (hsame : ∀ node, g (node.moved shift count) = (f node).moved shift count) :
    Joins shift count front (back.modify id f) (whole.modify (shift + id) g) := by
  have hroot {tree : Tree} {other : Nat} (hother : 0 < other) (f : Node → Node) :
      (tree.modify other f).children root = tree.children root := by
    have hne : other ≠ root := Nat.ne_of_gt hother
    rw [children_eq, children_eq, get?_modify, if_neg hne]
  refine ⟨h.size_front, ?_, ?_, fun other hother hle => ?_, fun other hother => ?_, ?_⟩
  · rw [size_modify]
    exact h.size_back
  · rw [size_modify, size_modify]
    exact h.size_whole
  · have hne : shift + id ≠ other := by omega
    rw [get?_modify, if_neg hne]
    exact h.get?_front other hother hle
  · rw [get?_modify, get?_modify, h.get?_back other hother]
    by_cases heq : id = other
    · rw [if_pos (congrArg _ heq), if_pos heq, Option.map_map, Option.map_map]
      exact congrArg (Option.map · _) (funext hsame)
    · rw [if_neg fun hsum => heq (Nat.add_left_cancel hsum), if_neg heq]
  · rw [hroot (Nat.add_pos_right shift hpos), hroot hpos]
    exact h.children_root

theorem closeEach (h : Joins shift count front back whole) {ids : List Nat}
    (hids : ∀ id ∈ ids, 0 < id) :
    Joins shift count front (back.closeEach line ids)
      (whole.closeEach (count + line) (ids.map (shift + ·))) := by
  have hmem (other : Nat) : shift + other ∈ ids.map (shift + ·) ↔ other ∈ ids := by
    rw [List.mem_map]
    exact ⟨fun ⟨_, hin, heq⟩ => Nat.add_left_cancel heq ▸ hin, fun hin => ⟨other, hin, rfl⟩⟩
  refine ⟨h.size_front, ?_, ?_, fun other hother hle => ?_, fun other hother => ?_, ?_⟩
  · rw [size_closeEach]
    exact h.size_back
  · rw [size_closeEach, size_closeEach]
    exact h.size_whole
  · rw [get?_closeEach, if_neg]
    · exact h.get?_front other hother hle
    · intro hin
      obtain ⟨id, hid, rfl⟩ := List.mem_map.mp hin
      have hpos := hids id hid
      omega
  · rw [get?_closeEach, get?_closeEach, h.get?_back other hother]
    by_cases hin : other ∈ ids
    · rw [if_pos ((hmem other).mpr hin), if_pos hin, Option.map_map, Option.map_map]
      rfl
    · rw [if_neg fun hmoved => hin ((hmem other).mp hmoved), if_neg hin]
  · rw [children_closeEach, children_closeEach]
    exact h.children_root

theorem push_of_children (h : Joins shift count front back whole)
    (hparent : 0 < parent ∧ outer = shift + parent ∨ parent = root ∧ outer = root) (node : Node)
    (hroot : (whole.push outer (node.moved shift count)).children root =
      front.children root ++ ((back.push parent node).children root).map (shift + ·)) :
    Joins shift count front (back.push parent node)
      (whole.push outer (node.moved shift count)) := by
  have hsize := h.size_whole
  have hback := h.size_back
  refine ⟨h.size_front, ?_, ?_, fun other hother hle => ?_, fun other hother => ?_, hroot⟩
  · rw [size_push]
    exact Nat.succ_pos _
  · rw [size_push, size_push, hsize, Nat.add_assoc]
  · have hne : outer ≠ other := by
      rcases hparent with ⟨_, rfl⟩ | ⟨_, rfl⟩
      · omega
      · exact Nat.ne_of_lt hother
    have hin : other < whole.size := by
      rw [hsize]
      omega
    rw [get?_push_of_lt hin, if_neg hne]
    exact h.get?_front other hother hle
  · have hnew : shift + other = whole.size ↔ other = back.size := by
      rw [hsize]
      exact Nat.add_left_cancel_iff
    have hinto : outer = shift + other ↔ parent = other := by
      rcases hparent with ⟨_, rfl⟩ | ⟨rfl, rfl⟩
      · exact Nat.add_left_cancel_iff
      · exact iff_of_false (Nat.ne_of_lt (Nat.add_pos_right shift hother)) (Nat.ne_of_lt hother)
    rw [get?_push, get?_push, h.get?_back other hother, hsize]
    have hnode : (if shift + other = shift + back.size then some (node.moved shift count)
        else (back.get? other).map (Node.moved shift count)) =
        (if other = back.size then some node else back.get? other).map
          (Node.moved shift count) := by
      rw [← hsize]
      simp only [hnew]
      split <;> rfl
    rw [hnode, Option.map_map, Option.map_map]
    refine congrArg (Option.map · _) (funext fun old => ?_)
    simp only [Function.comp, hinto]
    split
    · exact (Node.moved_concat ..).symm
    · rfl

theorem push (h : Joins shift count front back whole) (hpos : 0 < parent) (node : Node) :
    Joins shift count front (back.push parent node)
      (whole.push (shift + parent) (node.moved shift count)) := by
  have hin : root < whole.size := by
    rw [h.size_whole]
    exact Nat.add_pos_right shift h.size_back
  have houter : shift + parent ≠ root := Nat.ne_of_gt (Nat.add_pos_right shift hpos)
  have hinner : parent ≠ root := Nat.ne_of_gt hpos
  refine h.push_of_children (.inl ⟨hpos, rfl⟩) node ?_
  rw [children_push_of_ne houter hin, children_push_of_ne hinner h.size_back]
  exact h.children_root

theorem pushRoot (h : Joins shift count front back whole) (hback : back.isBlock root = true)
    (hwhole : whole.isBlock root = true) (hnode : node.children = []) :
    Joins shift count front (back.push root node) (whole.push root (node.moved shift count)) := by
  refine h.push_of_children (.inr ⟨rfl, rfl⟩) node ?_
  rw [children_push hback hnode, children_push hwhole (by rw [Node.children_moved, hnode]; rfl),
    if_pos rfl, if_pos rfl, h.children_root, h.size_whole, List.map_append, List.append_assoc]
  rfl

theorem declare (h : Joins shift count front back whole) (key : String) (id outer : NodeId) :
    Joins shift count front (back.declare key id) (whole.declare key outer) :=
  ⟨h.size_front, h.size_back, h.size_whole, h.get?_front, h.get?_back, h.children_root⟩

end Joins
end Tree
end Dialogue
