import Mathlib.Data.List.Basic
import Dialogue.Proofs.Tree.Traversal

/-! Trees without numbers. A node is its own content and its children in their order, and a jump
says which child to take on every level from the root on. A tree in pre-order is known from
this, numbers and all. -/
namespace Dialogue

def Node.bare (node : Node) : Node := { node with content := node.content.bare }

/-- A node by itself, where it leads, and what hangs on it. -/
inductive Nested
  | node (head : Option Node) (target : Option (Option (List Nat))) (children : List Nested)

namespace Tree

def ways (tree : Tree) : Nat → NodeId → List Nat → List (NodeId × List Nat)
  | 0, id, way => [(id, way)]
  | levels + 1, id, way => (id, way) :: (tree.children id).zipIdx.flatMap fun child =>
      ways tree levels child.1 (way ++ [child.2])

def position? (tree : Tree) (id : NodeId) : Option (List Nat) :=
  (tree.ways tree.size root []).lookup id

def follow? (tree : Tree) : NodeId → List Nat → Option NodeId
  | id, [] => some id
  | id, place :: way => (tree.children id)[place]?.bind fun child => follow? tree child way

def head? (tree : Tree) (id : NodeId) : Option Node := (tree.get? id).map Node.bare

def nest (tree : Tree) : Nat → NodeId → Nested
  | 0, id => .node (tree.head? id) ((tree.target? id).map tree.position?) []
  | levels + 1, id => .node (tree.head? id) ((tree.target? id).map tree.position?)
      ((tree.children id).map (nest tree levels))

def nested (tree : Tree) : Nested := tree.nest tree.size root

def Located (tree : Tree) : Prop :=
  ∀ id < tree.size, ∃ way, tree.position? id = some way ∧ tree.follow? root way = some id

/-- The nodes from `id` on with their levels, as they come in the pre-order. -/
def rows (tree : Tree) : Nat → Nat → NodeId → List (Nat × Option Node)
  | 0, level, id => [(level, tree.head? id)]
  | levels + 1, level, id =>
    (level, tree.head? id) :: (tree.children id).flatMap (rows tree levels (level + 1))

section Ways

variable {tree : Tree} {id other : NodeId} {way found : List Nat} {levels : Nat}

private theorem map_fst_ways (tree : Tree) (levels : Nat) (id : NodeId) (way : List Nat) :
    (tree.ways levels id way).map Prod.fst = id :: tree.below levels id := by
  induction levels generalizing id way with
  | zero => rfl
  | succ levels ih =>
    have hzip (ids : List NodeId) (first : Nat) :
        (ids.zipIdx first).flatMap (fun child => child.1 :: tree.below levels child.1) =
          ids.flatMap fun child => child :: tree.below levels child := by
      induction ids generalizing first with
      | nil => rfl
      | cons child rest ihrest => simp [ihrest]
    simp [ways, below, List.map_flatMap, ih, hzip]

theorem follow?_of_mem_ways (h : (other, found) ∈ tree.ways levels id way) :
    ∃ rest, found = way ++ rest ∧ tree.follow? id rest = some other := by
  induction levels generalizing id way with
  | zero =>
    obtain ⟨rfl, rfl⟩ := Prod.mk.inj (List.mem_singleton.mp h)
    exact ⟨[], (List.append_nil _).symm, rfl⟩
  | succ levels ih =>
    rcases List.mem_cons.mp h with heq | hbelow
    · obtain ⟨rfl, rfl⟩ := Prod.mk.inj heq
      exact ⟨[], (List.append_nil _).symm, rfl⟩
    · obtain ⟨⟨child, place⟩, hchild, hmem⟩ := List.mem_flatMap.mp hbelow
      obtain ⟨rest, rfl, hrest⟩ := ih hmem
      refine ⟨place :: rest, by simp, ?_⟩
      rw [follow?, List.mem_zipIdx_iff_getElem?.mp hchild]
      exact hrest

theorem located_of_shaped {level : Nat → Nat} (h : tree.Shaped level) : tree.Located := by
  intro id hid
  have hmem : id ∈ (tree.ways tree.size root []).map Prod.fst := by
    rw [map_fst_ways, List.mem_cons]
    rcases Nat.eq_zero_or_pos id with rfl | hpos
    · exact .inl rfl
    · exact .inr (h.mem_walk_iff.mpr ⟨hpos, hid⟩)
  cases hfind : tree.position? id with
  | none =>
    obtain ⟨⟨other, way⟩, hway, rfl⟩ := List.mem_map.mp hmem
    simpa using List.lookup_eq_none_iff.mp hfind _ hway
  | some way =>
    obtain ⟨before, after, hways, _⟩ := List.lookup_eq_some_iff.mp hfind
    have hway : (id, way) ∈ tree.ways tree.size root [] := by simp [hways]
    obtain ⟨rest, hrest, hfollow⟩ := follow?_of_mem_ways hway
    exact ⟨way, rfl, by rw [hrest]; exact hfollow⟩

end Ways

section Rows

variable {first second : Tree} {level : Nat → Nat} {id other : NodeId}

theorem children_eq_nil_of_le (h : first.Forward) (hid : first.size ≤ id) :
    first.children id = [] := by
  refine List.eq_nil_iff_forall_not_mem.mpr fun child hchild => ?_
  obtain ⟨hlt, hin⟩ := h id child hchild
  omega

theorem nest_eq (h : first.Forward) {levels : Nat} (hlevels : first.size ≤ levels + id) :
    first.nest levels id = .node (first.head? id) ((first.target? id).map first.position?)
      ((first.children id).map (first.nest (levels - 1))) := by
  cases levels with
  | zero => rw [children_eq_nil_of_le h (by omega), nest, List.map_nil]
  | succ levels => rfl

private theorem rows_eq_cons (h : first.Forward) {levels : Nat} (hlevels : first.size ≤ levels + id)
    (depth : Nat) : first.rows levels depth id =
      (depth, first.head? id) ::
        (first.children id).flatMap (first.rows (levels - 1) (depth + 1)) := by
  cases levels with
  | zero => rw [children_eq_nil_of_le h (by omega), rows, List.flatMap_nil]
  | succ levels => rfl

theorem flatMap_eq_of_map_eq {α β γ δ : Type} {f : α → γ} {g : β → γ} {f' : α → List δ}
    {g' : β → List δ} {as : List α} {bs : List β} (h : as.map f = bs.map g)
    (hmem : ∀ a ∈ as, ∀ b ∈ bs, f a = g b → f' a = g' b) : as.flatMap f' = bs.flatMap g' := by
  induction as generalizing bs with
  | nil => rw [List.map_eq_nil_iff.mp h.symm, List.flatMap_nil, List.flatMap_nil]
  | cons a as ih =>
    cases bs with
    | nil => contradiction
    | cons b bs =>
      obtain ⟨hhead, hrest⟩ := List.cons.inj h
      rw [List.flatMap_cons, List.flatMap_cons,
        hmem a List.mem_cons_self b List.mem_cons_self hhead, ih hrest]
      intro a' ha b' hb
      exact hmem a' (List.mem_cons_of_mem a ha) b' (List.mem_cons_of_mem b hb)

theorem rows_eq_of_nest_eq (hfirst : first.Forward) (hsecond : second.Forward) {levels more : Nat}
    (hlevels : first.size ≤ levels + id) (hmore : second.size ≤ more + other)
    (h : first.nest levels id = second.nest more other) (depth : Nat) :
    first.rows levels depth id = second.rows more depth other := by
  induction hgap : first.size - id using Nat.strongRecOn
    generalizing id other levels more depth with
  | _ gap ih =>
    rw [nest_eq hfirst hlevels, nest_eq hsecond hmore] at h
    obtain ⟨hhead, _, hchildren⟩ := Nested.node.inj h
    rw [rows_eq_cons hfirst hlevels, rows_eq_cons hsecond hmore, hhead]
    congr 1
    refine flatMap_eq_of_map_eq hchildren fun child hchild child' hchild' hsame => ?_
    obtain ⟨hlt, hin⟩ := hfirst id child hchild
    obtain ⟨hlt', hin'⟩ := hsecond other child' hchild'
    exact ih (first.size - child) (by omega) (by omega) (by omega) hsame _ rfl

/-- In a tree in pre-order every node comes in its place and at its level. -/
theorem rows_eq_map (h : first.Shaped level) (levels : Nat) (id : NodeId) :
    first.rows levels (level id) id =
      (id :: first.below levels id).map fun node => (level node, first.head? node) := by
  induction levels generalizing id with
  | zero => rfl
  | succ levels ih =>
    rw [rows, below, List.map_cons, List.map_flatMap]
    congr 1
    refine List.flatMap_congr fun child hchild => ?_
    rw [← ((h.mem_children_iff id child).mp hchild).2.level_eq, ih]

theorem rows_eq_range (h : first.Shaped level) :
    first.rows first.size 0 root =
      (List.range first.size).map fun node => (level node, first.head? node) := by
  have hrange : root :: first.walk = List.range first.size := by
    have hpos := h.size_pos
    rw [h.walk_eq, List.range_eq_range']
    obtain ⟨more, hmore⟩ : ∃ more, first.size = more + 1 := ⟨first.size - 1, by omega⟩
    rw [hmore, Nat.add_sub_cancel, List.range'_succ]
    rfl
  rw [← h.level_root, rows_eq_map h, ← hrange]
  rfl

theorem nested_congr (h : first.nodes = second.nodes) : first.nested = second.nested := by
  have hget : first.get? = second.get? := by
    funext id
    rw [get?, get?, h]
  have hchildren : first.children = second.children := by
    funext id
    rw [children, children, hget]
  have hways (levels : Nat) (id : NodeId) (way : List Nat) :
      first.ways levels id way = second.ways levels id way := by
    induction levels generalizing id way with
    | zero => rfl
    | succ levels ih => simp [ways, hchildren, ih]
  have hposition : first.position? = second.position? := by
    funext id
    rw [position?, position?, hways, size, size, h]
  have hnest (levels : Nat) (id : NodeId) : first.nest levels id = second.nest levels id := by
    induction levels generalizing id with
    | zero => simp [nest, head?, target?, hget, hposition]
    | succ levels ih => simp [nest, head?, target?, hget, hposition, hchildren, ih]
  rw [nested, nested, hnest, size, size, h]

end Rows

end Tree
end Dialogue
