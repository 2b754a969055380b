import Dialogue.Proofs.Tree.Level

/-! Nodes within a node: the node itself and what hangs on it, over any number of levels. A
node that is cut off takes all that is within it out of the tree. -/
namespace Dialogue.Tree

inductive Within (tree : Tree) (top : NodeId) : NodeId → Prop
  | self : Within tree top top
  | child {parent child : NodeId} (hparent : Within tree top parent)
      (hchild : child ∈ tree.children parent) : Within tree top child

variable {tree : Tree} {level : Nat → Nat} {top id : NodeId} {ids : List NodeId}

theorem Within.trans {middle : NodeId} (h : tree.Within top middle) (hid : tree.Within middle id) :
    tree.Within top id := by
  induction hid with
  | self => exact h
  | child _ hchild ih => exact .child ih hchild

theorem Within.of_detach (h : (tree.detach ids).Within top id) : tree.Within top id := by
  induction h with
  | self => exact .self
  | child _ hchild ih =>
    rw [children_detach] at hchild
    exact .child ih (List.mem_filter.mp hchild).1

theorem Within.eq_or_isBelow (h : tree.Within top id) (hshaped : tree.Shaped level) :
    id = top ∨ IsBelow level top id := by
  induction h with
  | self => exact .inl rfl
  | child _ hchild ih =>
    have hparent := ((hshaped.mem_children_iff _ _).mp hchild).2
    rcases ih with rfl | hbelow
    · exact .inr hparent.isBelow
    · exact .inr (hbelow.trans hparent.isBelow)

theorem Within.not_within_of_detach (h : (tree.detach ids).Within root id)
    (hshaped : tree.Shaped level) (hroot : root ∉ ids) (hcut : top ∈ ids) :
    ¬ tree.Within top id := by
  intro hwithin
  -- The nodes above `id` are all there, so the one that was cut off is not among them.
  have habove : id = top ∨ IsBelow level top id := hwithin.eq_or_isBelow hshaped
  clear hwithin
  induction h with
  | self =>
    rcases habove with rfl | hbelow
    · exact hroot hcut
    · exact Nat.not_lt_zero top hbelow.lt
  | child _ hchild ih =>
    rw [children_detach, List.mem_filter, decide_eq_true_eq] at hchild
    rcases habove with rfl | hbelow
    · exact hchild.2 hcut
    · have hparent := ((hshaped.mem_children_iff _ _).mp hchild.1).2
      refine ih ((hbelow.eq_or_isBelow_parent hparent).imp_left Eq.symm)

/-- The levels tell what hangs on a node. -/
theorem Shaped.within_iff (h : tree.Shaped level) (hid : id < tree.size) :
    tree.Within top id ↔ id = top ∨ IsBelow level top id := by
  refine ⟨fun hwithin => hwithin.eq_or_isBelow h, fun hbelow => ?_⟩
  induction id using Nat.strongRecOn with
  | _ id ih =>
    rcases hbelow with rfl | hbelow
    · exact .self
    · obtain ⟨parent, hchild⟩ := h.exists_parent (Nat.zero_lt_of_lt hbelow.lt) hid
      have hparent := ((h.mem_children_iff parent id).mp hchild).2
      have hlt := hparent.lt
      refine .child (ih parent hlt (Nat.lt_trans hlt hid) ?_) hchild
      exact (hbelow.eq_or_isBelow_parent hparent).imp_left Eq.symm

theorem Shaped.within_root (h : tree.Shaped level) (hid : id < tree.size) :
    tree.Within root id := by
  rcases Nat.eq_zero_or_pos id with rfl | hpos
  · exact .self
  · exact (h.within_iff hid).mpr (.inr (h.isBelow_root hpos hid))

theorem Within.lt_size (h : tree.Within root id) (hshaped : tree.Shaped level) :
    id < tree.size := by
  cases h with
  | self => exact hshaped.size_pos
  | child _ hchild => exact ((hshaped.mem_children_iff _ _).mp hchild).1

/-- What hangs on the root after a cut hangs on the same nodes as before. -/
theorem Within.within_detach_iff (h : (tree.detach ids).Within root id)
    (hshaped : tree.Shaped level) : (tree.detach ids).Within top id ↔ tree.Within top id := by
  refine ⟨fun hwithin => hwithin.of_detach, fun hwithin => ?_⟩
  induction h with
  | self =>
    rcases hwithin.eq_or_isBelow hshaped with rfl | hbelow
    · exact .self
    · exact absurd hbelow.lt (Nat.not_lt_zero top)
  | @child parent child hrest hchild ih =>
    have hedge := hchild
    rw [children_detach, List.mem_filter] at hedge
    obtain ⟨hin, hparent⟩ := (hshaped.mem_children_iff _ _).mp hedge.1
    rcases hwithin.eq_or_isBelow hshaped with rfl | hbelow
    · exact .self
    · refine .child (ih ?_) hchild
      refine (hshaped.within_iff (Nat.lt_trans hparent.lt hin)).mpr ?_
      exact (hbelow.eq_or_isBelow_parent hparent).imp_left Eq.symm

end Dialogue.Tree
