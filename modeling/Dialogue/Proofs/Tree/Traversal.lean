import Mathlib.Data.List.Flatten
import Dialogue.Proofs.Tree.Within

/-! Traversal. The walk is what comes of a stack from which the last node is taken and replaced
by its children, until nothing is left. It meets what hangs on the root and nothing else. -/
namespace Dialogue.Tree

def next? (tree : Tree) (stack : List NodeId) : Option (NodeId × List NodeId) :=
  stack.getLast?.map fun id => (id, stack.dropLast ++ (tree.children id).reverse)

/-- The nodes that are taken off a stack until it is empty. -/
inductive Drains (tree : Tree) : List NodeId → List NodeId → Prop
  | empty {stack : List NodeId} (h : tree.next? stack = none) : Drains tree stack []
  | node {stack rest ids : List NodeId} {id : NodeId} (h : tree.next? stack = some (id, rest))
      (hrest : Drains tree rest ids) : Drains tree stack (id :: ids)

def Forward (tree : Tree) : Prop :=
  ∀ parent child : Nat, child ∈ tree.children parent → parent < child ∧ child < tree.size

variable {tree : Tree} {level : Nat → Nat} {stack ids others : List NodeId} {id other : Nat}
  {levels : Nat}

theorem next?_concat (tree : Tree) (stack : List NodeId) (id : NodeId) :
    tree.next? (stack ++ [id]) = some (id, stack ++ (tree.children id).reverse) := by
  rw [next?, List.getLast?_concat, List.dropLast_concat]
  rfl

theorem Drains.eq (h : tree.Drains stack ids) (hother : tree.Drains stack others) :
    ids = others := by
  induction h generalizing others with
  | empty hnone =>
    cases hother with
    | empty => rfl
    | node hsome =>
      rw [hnone] at hsome
      contradiction
  | node hsome _ ih =>
    cases hother with
    | empty hnone =>
      rw [hsome] at hnone
      contradiction
    | node hsome' hrest =>
      rw [hsome] at hsome'
      obtain ⟨rfl, rfl⟩ := Prod.mk.inj (Option.some.inj hsome')
      rw [ih hrest]

theorem within_iff_eq_or_child :
    tree.Within id other ↔ other = id ∨ ∃ child ∈ tree.children id, tree.Within child other := by
  constructor
  · intro h
    induction h with
    | self => exact .inl rfl
    | child _ hedge ih =>
      rcases ih with rfl | ⟨child, hchild, hwithin⟩
      · exact .inr ⟨_, hedge, .self⟩
      · exact .inr ⟨child, hchild, .child hwithin hedge⟩
  · rintro (rfl | ⟨child, hchild, hwithin⟩)
    · exact .self
    · exact (Within.child .self hchild).trans hwithin

namespace Forward

theorem detach (h : tree.Forward) (ids : List NodeId) : (tree.detach ids).Forward := by
  intro parent child hchild
  rw [children_detach] at hchild
  rw [size_detach]
  exact h parent child (List.mem_filter.mp hchild).1

theorem children_eq_nil (h : tree.Forward) (hid : tree.size ≤ id) : tree.children id = [] := by
  refine List.eq_nil_iff_forall_not_mem.mpr fun child hchild => ?_
  obtain ⟨hlt, hin⟩ := h id child hchild
  omega

theorem drains_concat (h : tree.Forward) (hlevels : tree.size ≤ levels + id)
    (hrest : tree.Drains stack ids) :
    tree.Drains (stack ++ [id]) (id :: (tree.below levels id ++ ids)) := by
  refine .node (next?_concat tree stack id) ?_
  induction levels generalizing id stack ids with
  | zero =>
    rw [h.children_eq_nil (by omega), List.reverse_nil, List.append_nil]
    exact hrest
  | succ levels ih =>
    rw [below]
    have hchildren (child : Nat) (hchild : child ∈ tree.children id) :
        tree.size ≤ levels + child := by
      have hlt := (h id child hchild).1
      omega
    generalize tree.children id = children at hchildren
    -- The first child is on top of the stack, the others are drained behind it.
    induction children with
    | nil => exact (List.append_nil stack).symm ▸ hrest
    | cons child rest ihrest =>
      have hlater := ihrest fun other hother => hchildren other (List.mem_cons_of_mem child hother)
      have htop := Drains.node (next?_concat tree (stack ++ rest.reverse) child)
        (ih (hchildren child List.mem_cons_self) hlater)
      simpa only [List.reverse_cons, List.flatMap_cons, List.append_assoc, List.cons_append]
        using htop

/-- The walk comes to an end, and it is what the stack of the children of the root yields. -/
theorem drains_walk (h : tree.Forward) : tree.Drains (tree.children root).reverse tree.walk := by
  have hroot : tree.Drains ([] ++ [root]) (root :: (tree.walk ++ [])) :=
    h.drains_concat (Nat.le_refl _) (.empty rfl)
  cases hroot with
  | node hnext hrest =>
    rw [next?_concat] at hnext
    obtain ⟨_, rfl⟩ := Prod.mk.inj (Option.some.inj hnext)
    rw [List.append_nil, List.nil_append] at hrest
    exact hrest

private theorem mem_below_iff (h : tree.Forward) (hlevels : tree.size ≤ levels + id) :
    other ∈ tree.below levels id ↔ ∃ child ∈ tree.children id, tree.Within child other := by
  induction levels generalizing id with
  | zero =>
    rw [below, h.children_eq_nil (by omega)]
    refine iff_of_false List.not_mem_nil ?_
    rintro ⟨_, hchild, _⟩
    exact List.not_mem_nil hchild
  | succ levels ih =>
    rw [below, List.mem_flatMap]
    refine exists_congr fun child => and_congr_right fun hchild => ?_
    have hlt := (h id child hchild).1
    rw [List.mem_cons, ih (by omega), within_iff_eq_or_child]

private theorem lt_of_within_child (h : tree.Forward) {child : Nat}
    (hchild : child ∈ tree.children id) (hother : tree.Within child other) : id < other := by
  induction hother with
  | self => exact (h id child hchild).1
  | child _ hedge ih => exact Nat.lt_trans ih (h _ _ hedge).1

theorem mem_walk_iff (h : tree.Forward) :
    id ∈ tree.walk ↔ id ≠ root ∧ tree.Within root id := by
  rw [walk, h.mem_below_iff (Nat.le_refl _), within_iff_eq_or_child]
  constructor
  · rintro ⟨child, hchild, hid⟩
    refine ⟨?_, .inr ⟨child, hchild, hid⟩⟩
    rintro rfl
    exact Nat.lt_irrefl root (h.lt_of_within_child hchild hid)
  · rintro ⟨hne, rfl | hid⟩
    · exact absurd rfl hne
    · exact hid

end Forward

theorem Shaped.forward (h : tree.Shaped level) : tree.Forward := by
  intro parent child hchild
  obtain ⟨hin, hparent⟩ := (h.mem_children_iff parent child).mp hchild
  exact ⟨hparent.lt, hin⟩

theorem below_detach_sublist (tree : Tree) (ids : List NodeId) (levels : Nat) (id : NodeId) :
    ((tree.detach ids).below levels id).Sublist (tree.below levels id) := by
  induction levels generalizing id with
  | zero => exact .slnil
  | succ levels ih =>
    rw [below, below, children_detach]
    refine (List.filter_sublist.flatMap _).trans ?_
    exact List.Sublist.flatMap_right _ fun child _ => (ih child).cons_cons child

theorem walk_detach_sublist (tree : Tree) (ids : List NodeId) :
    (tree.detach ids).walk.Sublist tree.walk := by
  rw [walk, size_detach]
  exact tree.below_detach_sublist ids tree.size root

end Dialogue.Tree
