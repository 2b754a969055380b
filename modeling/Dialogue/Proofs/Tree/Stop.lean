import Dialogue.Proofs.Tree.Branch

/-! Where spans stop. Closing blocks fixes the ends of their spans and changes nothing else.
The open blocks are numbered from the outermost to the innermost one, and what hangs on the
innermost one is closed. -/
namespace Dialogue
namespace Tree

variable {tree : Tree} {line : Nat} {ids : List NodeId} {id : NodeId}

def stopOf (tree : Tree) (id : NodeId) : Nat := ((tree.get? id).map (·.span.stop)).getD 0

def closeEach (tree : Tree) (line : Nat) (ids : List NodeId) : Tree :=
  ids.foldl (Tree.close · line ·) tree

theorem get?_closeEach (tree : Tree) (line : Nat) (ids : List NodeId) (id : NodeId) :
    (tree.closeEach line ids).get? id =
      if id ∈ ids then (tree.get? id).map (Node.stoppedAt line) else tree.get? id := by
  induction ids generalizing tree with
  | nil => rfl
  | cons inner rest ih =>
    have htwice (node : Option Node) : (node.map (Node.stoppedAt line)).map (Node.stoppedAt line) =
        node.map (Node.stoppedAt line) := by
      cases node <;> rfl
    show (closeEach (tree.close line inner) line rest).get? id = _
    rw [ih, close, get?_modify]
    by_cases hinner : inner = id
    · simp [hinner, htwice]
    · simp [hinner, Ne.symm hinner]

@[simp] theorem mark?_closeEach (tree : Tree) (line : Nat) (ids : List NodeId) (id : NodeId) :
    (tree.closeEach line ids).mark? id = tree.mark? id := by
  unfold mark?
  rw [get?_closeEach]
  split
  · cases tree.get? id <;> rfl
  · rfl

@[simp] theorem children_closeEach (tree : Tree) (line : Nat) (ids : List NodeId) (id : NodeId) :
    (tree.closeEach line ids).children id = tree.children id := by
  rw [children_eq, children_eq, get?_closeEach]
  split
  · cases tree.get? id <;> rfl
  · rfl

@[simp] theorem size_closeEach (tree : Tree) (line : Nat) (ids : List NodeId) :
    (tree.closeEach line ids).size = tree.size := by
  induction ids generalizing tree with
  | nil => rfl
  | cons inner rest ih => exact (ih (tree.close line inner)).trans (size_close ..)

@[simp] theorem names_closeEach (tree : Tree) (line : Nat) (ids : List NodeId) :
    (tree.closeEach line ids).names = tree.names := by
  induction ids generalizing tree with
  | nil => rfl
  | cons inner rest ih => exact ih (tree.close line inner)

@[simp] theorem target?_closeEach (tree : Tree) (line : Nat) (ids : List NodeId) (id : NodeId) :
    (tree.closeEach line ids).target? id = tree.target? id := by
  unfold target?
  rw [get?_closeEach]
  split
  · cases tree.get? id <;> rfl
  · rfl

theorem stopOf_closeEach_of_not_mem (hid : id ∉ ids) :
    (tree.closeEach line ids).stopOf id = tree.stopOf id := by
  rw [stopOf, stopOf, get?_closeEach, if_neg hid]

theorem stopOf_closeEach (hid : id < tree.size) :
    (tree.closeEach line ids).stopOf id = if id ∈ ids then line else tree.stopOf id := by
  have hnode : tree.get? id = some tree.nodes[id] := Array.getElem?_eq_getElem hid
  rw [stopOf, stopOf, get?_closeEach, hnode]
  split <;> rfl

theorem stopOf_modify {other : NodeId} {f : Node → Node}
    (h : ∀ node, (f node).span.stop = node.span.stop) :
    (tree.modify id f).stopOf other = tree.stopOf other := by
  rw [stopOf, stopOf, get?_modify]
  split
  · cases tree.get? other <;> simp [h]
  · rfl

theorem stopOf_push (parent : NodeId) (node : Node) :
    (tree.push parent node).stopOf id =
      if id = tree.size then node.span.stop else tree.stopOf id := by
  have hstop (old : Node) : (if parent = id then old.mapChildren (· ++ [tree.size])
      else old).span.stop = old.span.stop := by
    split <;> rfl
  rw [stopOf, stopOf, get?_push, Option.map_map]
  simp only [Function.comp_def, hstop]
  split <;> rfl

theorem stopOf_of_get? {node : Node} (h : tree.get? id = some node) :
    tree.stopOf id = node.span.stop := by
  rw [stopOf, h]
  rfl

theorem lineOf_of_get? {node : Node} (h : tree.get? id = some node) :
    tree.lineOf id = node.span.line := by
  rw [lineOf, h]

theorem lineOf_congr {other : Tree} (h : other.mark? id = tree.mark? id) :
    other.lineOf id = tree.lineOf id := by
  rw [lineOf_eq, lineOf_eq, h]

theorem isScope_congr {other : Tree} (h : other.mark? id = tree.mark? id) :
    other.isScope id = tree.isScope id := by
  rw [isScope_eq, isScope_eq, label?, label?, h]

theorem isBlock_congr {other : Tree} (h : other.mark? id = tree.mark? id) :
    other.isBlock id = tree.isBlock id := by
  rw [isBlock, isBlock, label?, label?, h]

theorem scopes_congr {other : Tree} (hmark : ∀ id, other.mark? id = tree.mark? id)
    (hchildren : other.children root = tree.children root) : other.scopes = tree.scopes := by
  have hscope : other.isScope = tree.isScope := funext fun id => isScope_congr (hmark id)
  rw [scopes, scopes, hchildren, hscope]

theorem Drawn.children_eq {entries : List Entry} {other : Tree} (h : tree.Drawn entries)
    (hother : other.Drawn entries) : other.children = tree.children := by
  funext parent
  refine eq_of_sorted (hother.shaped.sorted parent) (h.shaped.sorted parent) fun child => ?_
  rw [hother.shaped.mem_children_iff, h.shaped.mem_children_iff, hother.size_eq, h.size_eq]

end Tree

namespace Draft

theorem tree_closeAll (draft : Draft) (line : Nat) :
    (draft.closeAll line).tree = draft.tree.closeEach line draft.opened := rfl

/-- The draft once all but so many blocks are closed, the inner ones first. -/
def shut (draft : Draft) (depth line : Nat) : Draft :=
  ⟨draft.tree.closeEach line (draft.opened.take (draft.opened.length - depth)),
    draft.opened.drop (draft.opened.length - depth)⟩

theorem dedent_eq_shut {depth line : Nat} {tree : Tree} {opened : List NodeId}
    (h : (dedent depth line tree opened).1 = true) :
    (dedent depth line tree opened).2 = shut ⟨tree, opened⟩ depth line := by
  induction opened generalizing tree with
  | nil => simp [dedent, shut, Tree.closeEach]
  | cons id below ih =>
    unfold dedent at h ⊢
    split at h
    next hlt =>
      have hnone : (id :: below).length - depth = 0 := Nat.sub_eq_zero_of_le hlt
      rw [if_pos hlt, shut, hnone]
      rfl
    next hge =>
      split at h
      next => contradiction
      next hscope =>
        have hlength : (id :: below).length - depth = below.length - depth + 1 := by
          rw [List.length_cons]
          omega
        rw [if_neg hge, if_neg hscope, ih h, shut, shut, hlength]
        rfl

end Draft

namespace Sketch.Branch

variable {entries : List Entry} {opened below : List Nat} {id outer : Nat}

theorem sorted (h : Branch entries opened) : opened.Pairwise (· > ·) := by
  induction h with
  | scope => exact List.pairwise_singleton ..
  | @block id outer below _ _ hright hlevel hrest ih =>
    have hlt : outer < id := by
      rcases Nat.lt_trichotomy outer id with hlt | heq | hgt
      · exact hlt
      · rw [heq] at hlevel
        omega
      · have hdeep := hright.level_lt outer hgt hrest.isRightmost_head.lt
        omega
    refine List.pairwise_cons.mpr ⟨fun other hother => ?_, ih⟩
    rcases List.mem_cons.mp hother with rfl | hbelow
    · exact hlt
    · exact Nat.lt_trans (List.rel_of_pairwise_cons ih hbelow) hlt

theorem isBlockAt_of_mem (h : Branch entries opened) (hid : id ∈ opened) :
    isBlockAt entries id = true := by
  induction h with
  | scope hscope =>
    rw [List.mem_singleton.mp hid]
    exact isBlockAt_of_isScopeAt hscope
  | block hblock _ _ _ _ ih =>
    rcases List.mem_cons.mp hid with rfl | hbelow
    · exact hblock
    · exact ih hbelow

theorem lt_length_of_mem (h : Branch entries opened) (hid : id ∈ opened) :
    id < entries.length :=
  lt_length_of_isBlockAt (h.isBlockAt_of_mem hid)

theorem mem_of_last_scope (h : Branch entries opened) (hscope : isScopeAt entries id = true)
    (hlast : ∀ other, isScopeAt entries other = true → other ≤ id) : id ∈ opened := by
  induction h with
  | scope hbase hmost =>
    rw [List.mem_singleton]
    exact Nat.le_antisymm (hmost id hscope) (hlast _ hbase)
  | block _ _ _ _ _ ih => exact List.mem_cons_of_mem _ ih

theorem not_mem_of_head_lt (h : Branch entries (id :: below)) {child : Nat} (hlt : id < child) :
    child ∉ id :: below := by
  intro hmem
  rcases List.mem_cons.mp hmem with rfl | hbelow
  · exact Nat.lt_irrefl _ hlt
  · exact Nat.lt_asymm hlt (List.rel_of_pairwise_cons h.sorted hbelow)

end Sketch.Branch
end Dialogue
