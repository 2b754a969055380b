import Dialogue.Proofs.Tree.Mark
import Dialogue.Tree.Walk

/-! Levels. Nodes are numbered in pre-order, so that the shape of a tree is known once
every node has a level: a node hangs on the last node before it that is one level up.
The walk over such a tree meets its nodes in the order of their numbers. -/
namespace Dialogue

variable {level : Nat → Nat} {size id other child parent : Nat}

/-- The last node before `child` that is one level up. -/
structure IsParent (level : Nat → Nat) (parent child : Nat) : Prop where
  lt : parent < child
  level_eq : level child = level parent + 1
  le_between : ∀ node, parent < node → node < child → level child ≤ level node

structure IsBelow (level : Nat → Nat) (id other : Nat) : Prop where
  lt : id < other
  level_lt : ∀ node, id < node → node ≤ other → level id < level node

theorem IsParent.eq (h : IsParent level parent child) (hother : IsParent level other child) :
    parent = other := by
  have hlevel := h.level_eq
  have hsame := hother.level_eq
  rcases Nat.lt_trichotomy parent other with hlt | heq | hgt
  · have hle := h.le_between other hlt hother.lt
    omega
  · exact heq
  · have hle := hother.le_between parent hgt h.lt
    omega

theorem IsParent.isBelow (h : IsParent level parent child) : IsBelow level parent child := by
  refine ⟨h.lt, fun node hlt hle => ?_⟩
  have hlevel := h.level_eq
  rcases Nat.lt_or_eq_of_le hle with hbefore | rfl
  · have hbetween := h.le_between node hlt hbefore
    omega
  · omega

theorem IsBelow.trans {middle : Nat} (h : IsBelow level id middle)
    (hother : IsBelow level middle other) : IsBelow level id other := by
  refine ⟨Nat.lt_trans h.lt hother.lt, fun node hlt hle => ?_⟩
  have hmiddle := h.level_lt middle h.lt (Nat.le_refl _)
  rcases Nat.lt_or_ge middle node with hbehind | hbefore
  · exact Nat.lt_trans hmiddle (hother.level_lt node hbehind hle)
  · exact h.level_lt node hlt hbefore

theorem IsBelow.eq_or_isBelow_parent (h : IsBelow level id child)
    (hparent : IsParent level parent child) : id = parent ∨ IsBelow level id parent := by
  have hlevel := h.level_lt child h.lt (Nat.le_refl _)
  rcases Nat.lt_trichotomy id parent with hlt | heq | hgt
  · refine .inr ⟨hlt, fun node hbehind hle => h.level_lt node hbehind ?_⟩
    exact Nat.le_trans hle (Nat.le_of_lt hparent.lt)
  · exact .inl heq
  · have hle := hparent.le_between id hgt h.lt
    omega

/-- Levels go down by one at a time, so that what is below a node is at or below one of
its children. -/
theorem IsBelow.exists_child
    (hstep : ∀ node, 0 < node → node < size → level node ≤ level (node - 1) + 1)
    (h : IsBelow level id other) (hother : other < size) :
    ∃ child, IsParent level id child ∧ (child = other ∨ IsBelow level child other) := by
  obtain ⟨lead, rfl⟩ : ∃ lead, other = id + 1 + lead := ⟨other - (id + 1), by have := h.lt; omega⟩
  induction lead with
  | zero =>
    have hlt := h.level_lt (id + 1) (Nat.lt_succ_self id) (Nat.le_refl _)
    have hle := hstep (id + 1) (Nat.succ_pos id) hother
    rw [Nat.add_sub_cancel] at hle
    refine ⟨id + 1, ⟨Nat.lt_succ_self id, by omega, ?_⟩, .inl rfl⟩
    intro node hlo hhi
    omega
  | succ lead ih =>
    rw [← Nat.add_assoc] at h hother ⊢
    have hbefore : IsBelow level id (id + 1 + lead) :=
      ⟨by omega, fun node hlo hhi => h.level_lt node hlo (by omega)⟩
    have hlast := h.level_lt (id + 1 + lead + 1) (by omega) (Nat.le_refl _)
    by_cases hlevel : level (id + 1 + lead + 1) = level id + 1
    · refine ⟨id + 1 + lead + 1, ⟨by omega, hlevel, ?_⟩, .inl rfl⟩
      intro node hlo hhi
      have hnode := h.level_lt node hlo (by omega)
      omega
    · obtain ⟨child, hchild, hrest⟩ := ih hbefore (by omega)
      have hsame := hchild.level_eq
      have hle : child ≤ id + 1 + lead := by
        rcases hrest with rfl | hbelow
        · exact Nat.le_refl _
        · exact Nat.le_of_lt hbelow.lt
      refine ⟨child, hchild, .inr ⟨by omega, fun node hlo hhi => ?_⟩⟩
      rcases Nat.lt_or_eq_of_le hhi with hlt | rfl
      · rcases hrest with rfl | hbelow
        · omega
        · exact hbelow.level_lt node hlo (by omega)
      · omega

theorem IsBelow.exists_parent
    (hstep : ∀ node, 0 < node → node < size → level node ≤ level (node - 1) + 1)
    (h : IsBelow level id child) (hchild : child < size) :
    ∃ parent, IsParent level parent child := by
  induction hgap : child - id using Nat.strongRecOn generalizing id with
  | _ gap ih =>
    obtain ⟨first, hfirst, hrest⟩ := h.exists_child hstep hchild
    rcases hrest with rfl | hbelow
    · exact ⟨id, hfirst⟩
    · have hlt := hbelow.lt
      have hmore := hfirst.lt
      exact ih (child - first) (by omega) hbelow rfl

/-- A tree in pre-order, with the levels of its nodes. -/
structure Tree.Shaped (tree : Tree) (level : Nat → Nat) : Prop where
  size_pos : 0 < tree.size
  level_root : level Tree.root = 0
  level_pos : ∀ id : Nat, 0 < id → id < tree.size → 0 < level id
  level_le : ∀ id : Nat, 0 < id → id < tree.size → level id ≤ level (id - 1) + 1
  sorted : ∀ id : Nat, (tree.children id).Pairwise (· < ·)
  mem_children_iff : ∀ parent child : Nat, child ∈ tree.children parent ↔
    child < tree.size ∧ IsParent level parent child

theorem eq_of_sorted_on {α : Type} (key : α → Nat) {items others : List α}
    (hitems : items.Pairwise (key · < key ·)) (hothers : others.Pairwise (key · < key ·))
    (h : ∀ item, item ∈ items ↔ item ∈ others) : items = others := by
  have hnodup {items : List α} (hsorted : items.Pairwise (key · < key ·)) : items.Nodup :=
    hsorted.imp fun hlt heq => Nat.ne_of_lt hlt (congrArg key heq)
  refine List.Perm.eq_of_pairwise (fun _ _ _ _ hlt hgt => absurd hlt (Nat.lt_asymm hgt))
    hitems hothers ?_
  exact (List.perm_ext_iff_of_nodup (hnodup hitems) (hnodup hothers)).mpr h

theorem eq_of_sorted {ids others : List Nat} (hids : ids.Pairwise (· < ·))
    (hothers : others.Pairwise (· < ·)) (h : ∀ id, id ∈ ids ↔ id ∈ others) : ids = others :=
  eq_of_sorted_on id hids hothers h

namespace Tree.Shaped

variable {tree : Tree}

theorem isBelow_root (h : tree.Shaped level) (hpos : 0 < id) (hlt : id < tree.size) :
    IsBelow level Tree.root id := by
  refine ⟨hpos, fun node hlo hhi => ?_⟩
  rw [h.level_root]
  exact h.level_pos node hlo (Nat.lt_of_le_of_lt hhi hlt)

theorem exists_parent (h : tree.Shaped level) (hpos : 0 < id) (hlt : id < tree.size) :
    ∃ parent, id ∈ tree.children parent := by
  obtain ⟨parent, hparent⟩ := (h.isBelow_root hpos hlt).exists_parent h.level_le hlt
  exact ⟨parent, (h.mem_children_iff parent id).mpr ⟨hlt, hparent⟩⟩

theorem mem_below_iff (h : tree.Shaped level) {levels : Nat} (hlevels : tree.size ≤ levels + id) :
    other ∈ tree.below levels id ↔ other < tree.size ∧ IsBelow level id other := by
  induction levels generalizing id with
  | zero =>
    rw [below]
    refine ⟨fun h => (nomatch h), fun ⟨hlt, hbelow⟩ => ?_⟩
    have hmore := hbelow.lt
    omega
  | succ levels ih =>
    simp only [below, List.mem_flatMap, List.mem_cons]
    constructor
    · rintro ⟨child, hchild, hrest⟩
      obtain ⟨hlt, hparent⟩ := (h.mem_children_iff id child).mp hchild
      have hmore := hparent.lt
      rcases hrest with rfl | hbelow
      · exact ⟨hlt, hparent.isBelow⟩
      · obtain ⟨hother, hbelow⟩ := (ih (by omega)).mp hbelow
        exact ⟨hother, hparent.isBelow.trans hbelow⟩
    · rintro ⟨hother, hbelow⟩
      obtain ⟨child, hchild, hrest⟩ := hbelow.exists_child h.level_le hother
      have hmore := hchild.lt
      rcases hrest with rfl | hdeep
      · exact ⟨child, (h.mem_children_iff id child).mpr ⟨hother, hchild⟩, .inl rfl⟩
      · refine ⟨child, (h.mem_children_iff id child).mpr ⟨?_, hchild⟩, .inr ?_⟩
        · exact Nat.lt_trans hdeep.lt hother
        · exact (ih (by omega)).mpr ⟨hother, hdeep⟩

private theorem sorted_below (h : tree.Shaped level) {levels : Nat}
    (hlevels : tree.size ≤ levels + id) :
    (tree.below levels id).Pairwise (· < ·) := by
  induction levels generalizing id with
  | zero => exact .nil
  | succ levels ih =>
    have hchild {child : Nat} (hmem : child ∈ tree.children id) :
        tree.size ≤ levels + child := by
      have hlt := ((h.mem_children_iff id child).mp hmem).2.lt
      omega
    rw [below, List.pairwise_flatMap]
    constructor
    · intro child hmem
      refine List.pairwise_cons.mpr ⟨fun node hnode => ?_, ih (hchild hmem)⟩
      exact ((h.mem_below_iff (hchild hmem)).mp hnode).2.lt
    · refine (h.sorted id).imp_of_mem fun {first second} hfirst hsecond hlt => ?_
      have hlast (node : Nat) (hnode : node ∈ first :: tree.below levels first) :
          node < second := by
        rcases List.mem_cons.mp hnode with rfl | hbelow
        · exact hlt
        · have hdeep := ((h.mem_below_iff (hchild hfirst)).mp hbelow).2
          refine Nat.lt_of_not_le fun hle => ?_
          have hlevel := hdeep.level_lt second hlt hle
          have hone := ((h.mem_children_iff id first).mp hfirst).2.level_eq
          have htwo := ((h.mem_children_iff id second).mp hsecond).2.level_eq
          omega
      intro node hnode next hnext
      refine Nat.lt_of_lt_of_le (hlast node hnode) ?_
      rcases List.mem_cons.mp hnext with rfl | hbelow
      · exact Nat.le_refl _
      · exact Nat.le_of_lt ((h.mem_below_iff (hchild hsecond)).mp hbelow).2.lt

theorem mem_walk_iff (h : tree.Shaped level) : id ∈ tree.walk ↔ 0 < id ∧ id < tree.size := by
  rw [walk, h.mem_below_iff (Nat.le_refl _)]
  exact ⟨fun ⟨hlt, hbelow⟩ => ⟨hbelow.lt, hlt⟩, fun ⟨hpos, hlt⟩ => ⟨hlt, h.isBelow_root hpos hlt⟩⟩

/-- The walk meets every node but the root once, in the order of their numbers. -/
theorem walk_eq (h : tree.Shaped level) : tree.walk = List.range' 1 (tree.size - 1) := by
  refine eq_of_sorted (h.sorted_below (Nat.le_refl _)) List.pairwise_lt_range' fun id => ?_
  rw [h.mem_walk_iff, List.mem_range'_1]
  omega

end Tree.Shaped
end Dialogue
