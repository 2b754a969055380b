import Dialogue.Proofs.Tree.Pairing
import Dialogue.Proofs.Tree.Sketch

/-! Remarks. A comment that is put into a tree in pre-order takes the number of the node that it
comes before, and those from there on move up by one. It hangs among its siblings, or behind them,
and everything else hangs where it hung. -/
namespace Dialogue

/-- Numbers from a place on make room for one more. -/
def around (place number : Nat) : Nat := if number < place then number else number + 1

section Around

variable {place number other : Nat}

theorem around_of_lt (h : number < place) : around place number = number := if_pos h

theorem around_of_le (h : place ≤ number) : around place number = number + 1 :=
  if_neg (Nat.not_lt.mpr h)

theorem around_lt_around_iff : around place number < around place other ↔ number < other := by
  unfold around
  split <;> split <;> omega

private theorem around_injective (h : around place number = around place other) :
    number = other := by
  unfold around at h
  split at h <;> split at h <;> omega

theorem around_ne (place number : Nat) : around place number ≠ place := by
  unfold around
  split <;> omega

theorem around_lt_place_iff : around place number < place ↔ number < place := by
  unfold around
  split <;> omega

theorem place_lt_around_iff : place < around place number ↔ place ≤ number := by
  unfold around
  split <;> omega

private theorem around_lt_succ_iff {size : Nat} (h : place ≤ size) :
    around place number < size + 1 ↔ number < size := by
  unfold around
  split <;> omega

theorem eq_or_exists_around (place number : Nat) :
    number = place ∨ ∃ other, number = around place other := by
  rcases Nat.lt_trichotomy number place with hlt | heq | hgt
  · exact .inr ⟨number, (around_of_lt hlt).symm⟩
  · exact .inl heq
  · refine .inr ⟨number - 1, ?_⟩
    rw [around_of_le (by omega)]
    omega

private theorem mem_map_around_iff {ids : List Nat} : around place number ∈ ids.map (around place) ↔
    number ∈ ids := by
  rw [List.mem_map]
  exact ⟨fun ⟨_, hin, heq⟩ => around_injective heq ▸ hin, fun hin => ⟨number, hin, rfl⟩⟩

theorem place_notMem_map_around (place : Nat) (ids : List Nat) :
    place ∉ ids.map (around place) := by
  intro hin
  obtain ⟨other, _, heq⟩ := List.mem_map.mp hin
  exact around_ne place other heq

theorem sorted_map_around {ids : List Nat} (h : ids.Pairwise (· < ·)) :
    (ids.map (around place)).Pairwise (· < ·) :=
  List.pairwise_map.mpr (h.imp fun hlt => around_lt_around_iff.mpr hlt)

end Around

section Sorted

variable {ids front back : List Nat} {place : Nat}

theorem exists_split_of_sorted (h : ids.Pairwise (· < ·)) (place : Nat) :
    ∃ front back, ids = front ++ back ∧ (∀ id ∈ front, id < place) ∧ ∀ id ∈ back, place ≤ id := by
  induction ids with
  | nil => exact ⟨[], [], rfl, List.forall_mem_nil _, List.forall_mem_nil _⟩
  | cons id rest ih =>
    obtain ⟨hhead, hrest⟩ := List.pairwise_cons.mp h
    rcases Nat.lt_or_ge id place with hlt | hge
    · obtain ⟨front, back, rfl, hfront, hback⟩ := ih hrest
      exact ⟨id :: front, back, rfl, List.forall_mem_cons.mpr ⟨hlt, hfront⟩, hback⟩
    · refine ⟨[], id :: rest, rfl, List.forall_mem_nil _, List.forall_mem_cons.mpr ⟨hge, ?_⟩⟩
      exact fun other hother => Nat.le_trans hge (Nat.le_of_lt (hhead other hother))

theorem sorted_around_split (h : (front ++ back).Pairwise (· < ·))
    (hfront : ∀ id ∈ front, id < place) (hback : ∀ id ∈ back, place ≤ id) :
    (front.map (around place) ++ place :: back.map (around place)).Pairwise (· < ·) := by
  obtain ⟨hbefore, hafter, hacross⟩ := List.pairwise_append.mp h
  refine List.pairwise_append.mpr ⟨sorted_map_around hbefore,
    List.pairwise_cons.mpr ⟨fun child hchild => ?_, sorted_map_around hafter⟩, ?_⟩
  · obtain ⟨id, hid, rfl⟩ := List.mem_map.mp hchild
    exact place_lt_around_iff.mpr (hback id hid)
  · intro child hchild last hlast
    obtain ⟨id, hid, rfl⟩ := List.mem_map.mp hchild
    rcases List.mem_cons.mp hlast with rfl | hlast
    · exact around_lt_place_iff.mpr (hfront id hid)
    · obtain ⟨later, hlater, rfl⟩ := List.mem_map.mp hlast
      exact around_lt_around_iff.mpr (hacross id hid later hlater)

theorem head?_eq_of_sorted (h : back.Pairwise (· < ·)) (hback : ∀ id ∈ back, place ≤ id)
    (hmem : place ∈ back) : back.head? = some place := by
  cases back with
  | nil => contradiction
  | cons first rest =>
    refine congrArg some ?_
    rcases List.mem_cons.mp hmem with heq | hrest
    · exact heq.symm
    · exact absurd ((List.pairwise_cons.mp h).1 place hrest)
        (Nat.not_lt.mpr (hback first List.mem_cons_self))

end Sorted

/-! A level put in. It is no higher up than the level of the node that it comes before, which has
then nothing to hang on it. -/

section Levels

variable {level more : Nat → Nat} {place parent child : Nat}

private theorem IsParent.remarked (hkept : ∀ id, more (around place id) = level id)
    (hdeep : level place ≤ more place) (h : IsParent level parent child) :
    IsParent more (around place parent) (around place child) := by
  refine ⟨around_lt_around_iff.mpr h.lt, ?_, fun node hlo hhi => ?_⟩
  · rw [hkept, hkept]
    exact h.level_eq
  · rw [hkept]
    rcases eq_or_exists_around place node with rfl | ⟨other, rfl⟩
    · rcases Nat.lt_or_eq_of_le (place_lt_around_iff.mp hhi) with hlt | rfl
      · exact Nat.le_trans (h.le_between node (around_lt_place_iff.mp hlo) hlt) hdeep
      · exact hdeep
    · rw [hkept]
      exact h.le_between other (around_lt_around_iff.mp hlo) (around_lt_around_iff.mp hhi)

private theorem IsParent.of_remarked (hkept : ∀ id, more (around place id) = level id)
    (h : IsParent more (around place parent) (around place child)) :
    IsParent level parent child := by
  refine ⟨around_lt_around_iff.mp h.lt, ?_, fun node hlo hhi => ?_⟩
  · rw [← hkept child, ← hkept parent]
    exact h.level_eq
  · rw [← hkept child, ← hkept node]
    exact h.le_between _ (around_lt_around_iff.mpr hlo) (around_lt_around_iff.mpr hhi)

theorem IsParent.of_place (hkept : ∀ id, more (around place id) = level id)
    (hsame : level place = more place) (h : IsParent more (around place parent) place) :
    IsParent level parent place := by
  refine ⟨around_lt_place_iff.mp h.lt, ?_, fun node hlo hhi => ?_⟩
  · rw [hsame, ← hkept parent]
    exact h.level_eq
  · rw [hsame, ← hkept node]
    exact h.le_between _ (around_lt_around_iff.mpr hlo) (around_lt_place_iff.mpr hhi)

theorem not_isParent_behind (hkept : ∀ id, more (around place id) = level id)
    (hlow : level place < more place) (h : IsParent more (around place parent) place)
    (hchild : place ≤ child) : ¬ IsParent level parent child := by
  intro hparent
  have hlevel := h.level_eq
  have hsame := hparent.level_eq
  rw [hkept] at hlevel
  rcases Nat.lt_or_eq_of_le hchild with hlt | rfl
  · have hbetween := hparent.le_between place (around_lt_place_iff.mp h.lt) hlt
    omega
  · omega

end Levels

namespace Tree

/-- Siblings without and with the remark. It does not stand between two choices. -/
inductive Beside (tree : Tree) (place : NodeId) : List NodeId → List NodeId → Prop
  | elsewhere (ids : List NodeId) : Beside tree place ids (ids.map (around place))
  | among (front back : List NodeId)
      (hapart : front.getLast?.any tree.isChoice = true → back.head?.any tree.isChoice = false) :
      Beside tree place (front ++ back)
        (front.map (around place) ++ place :: back.map (around place))

def remark (tree : Tree) (place : NodeId) : Pairing :=
  ⟨fun id other => other = around place id, tree.Beside place⟩

theorem rel_remark_iff {tree : Tree} {place : NodeId} {target other : Option NodeId} :
    Option.Rel (tree.remark place).node target other ↔ other = target.map (around place) := by
  constructor
  · rintro (⟨rfl⟩ | _)
    · rfl
    · rfl
  · rintro rfl
    cases target with
    | none => exact .none
    | some id => exact .some rfl

structure Remarked (tree other : Tree) (place : NodeId) : Prop where
  pos : 0 < place
  remark : ∃ span text, other.get? place = some ⟨span, .leaf (.comment text)⟩
  node : ∀ id, Option.Rel (fun node twin => (tree.remark place).Contents node.content twin.content)
    (tree.get? id) (other.get? (around place id))
  find? : ∀ key, other.find? key = (tree.find? key).map (around place)

namespace Beside

variable {tree : Tree} {place id : NodeId} {ids others : List NodeId}

/-- The siblings begin alike, or the remark is the first of them. -/
theorem cases_head (h : tree.Beside place ids others) :
    (ids = [] ∧ others = []) ∨ others = place :: ids.map (around place) ∨
      ∃ id rest more, ids = id :: rest ∧ others = around place id :: more := by
  cases h with
  | elsewhere ids =>
    cases ids with
    | nil => exact .inl ⟨rfl, rfl⟩
    | cons id rest => exact .inr (.inr ⟨id, rest, _, rfl, rfl⟩)
  | among front back hapart =>
    cases front with
    | nil => exact .inr (.inl rfl)
    | cons id rest => exact .inr (.inr ⟨id, rest ++ back, _, rfl, rfl⟩)

theorem tail (h : tree.Beside place (id :: ids) (around place id :: others)) :
    tree.Beside place ids others := by
  generalize hids : id :: ids = all at h
  generalize hothers : around place id :: others = rest at h
  cases h with
  | elsewhere =>
    subst hids
    obtain ⟨_, rfl⟩ := List.cons.inj hothers
    exact .elsewhere ids
  | among front back hapart =>
    cases front with
    | nil => exact absurd (List.cons.inj hothers).1 (around_ne place id)
    | cons first front =>
      obtain ⟨rfl, rfl⟩ := List.cons.inj hids
      obtain ⟨_, rfl⟩ := List.cons.inj hothers
      refine .among front back fun hlast => hapart ?_
      cases front with
      | nil => contradiction
      | cons => exact hlast

theorem isChoice_behind (h : tree.Beside place (id :: ids) (around place id :: place :: others))
    (hid : tree.isChoice id = true) : ids.head?.any tree.isChoice = false := by
  generalize hids : id :: ids = all at h
  generalize hothers : around place id :: place :: others = rest at h
  cases h with
  | elsewhere =>
    subst hids
    refine absurd ?_ (place_notMem_map_around place ids)
    rw [← (List.cons.inj hothers).2]
    exact List.mem_cons_self
  | among front back hapart =>
    cases front with
    | nil => exact absurd (List.cons.inj hothers).1 (around_ne place id)
    | cons first front =>
      obtain ⟨rfl, rfl⟩ := List.cons.inj hids
      cases front with
      | nil => exact hapart hid
      | cons next front =>
        obtain ⟨_, hnext⟩ := List.cons.inj hothers
        exact absurd (List.cons.inj hnext).1.symm (around_ne place next)

theorem choices {other : Tree} (h : tree.Beside place ids others)
    (hchoice : ∀ id, other.isChoice (around place id) = tree.isChoice id)
    (hremark : other.isChoice place = false) (hhead : others.head? ≠ some place) :
    others.takeWhile other.isChoice = (ids.takeWhile tree.isChoice).map (around place) ∧
      tree.Beside place (ids.drop (ids.takeWhile tree.isChoice).length)
        (others.drop (ids.takeWhile tree.isChoice).length) := by
  induction ids generalizing others with
  | nil =>
    rcases h.cases_head with ⟨_, rfl⟩ | rfl | ⟨_, _, _, hnone, _⟩
    · exact ⟨rfl, h⟩
    · exact absurd rfl hhead
    · contradiction
  | cons id ids ih =>
    rcases h.cases_head with ⟨hnone, _⟩ | rfl | ⟨_, _, others, hcons, rfl⟩
    · contradiction
    · exact absurd rfl hhead
    · obtain ⟨rfl, rfl⟩ := List.cons.inj hcons
      have hsame := hchoice id
      cases hid : tree.isChoice id with
      | false =>
        rw [List.takeWhile_cons_of_neg (ne_true_of_eq_false (hsame.trans hid)),
          List.takeWhile_cons_of_neg (ne_true_of_eq_false hid)]
        exact ⟨rfl, h⟩
      | true =>
        rw [List.takeWhile_cons_of_pos (hsame.trans hid), List.takeWhile_cons_of_pos hid]
        by_cases hnext : others.head? = some place
        · -- The run ends here on both sides: with the remark, and without another choice.
          obtain ⟨more, rfl⟩ := List.head?_eq_some_iff.mp hnext
          have hids : ids.takeWhile tree.isChoice = [] := by
            have hbehind := h.isChoice_behind hid
            cases ids with
            | nil => rfl
            | cons first rest =>
              exact List.takeWhile_cons_of_neg (ne_true_of_eq_false hbehind)
          rw [hids, List.takeWhile_cons_of_neg (ne_true_of_eq_false hremark)]
          exact ⟨rfl, h.tail⟩
        · obtain ⟨hrun, hrest⟩ := ih h.tail hnext
          exact ⟨congrArg (around place id :: ·) hrun, hrest⟩

end Beside

namespace Remarked

variable {tree other : Tree} {place : NodeId} {ids others : List NodeId}

private theorem isChoice_place (h : tree.Remarked other place) : other.isChoice place = false := by
  obtain ⟨span, text, hremark⟩ := h.remark
  rw [Tree.isChoice, hremark]
  rfl

theorem paired (h : tree.Remarked other place) : tree.Paired other (tree.remark place) where
  nil := .elsewhere []
  node := by
    rintro id _ rfl
    exact h.node id
  find? key := rel_remark_iff.mpr (h.find? key)

theorem ready (h : tree.Remarked other place) (hbeside : tree.Beside place ids others)
    (hhead : others.head? ≠ some place) : (tree.remark place).Ready tree other ids others := by
  have hchoice (id : NodeId) : other.isChoice (around place id) = tree.isChoice id :=
    (h.paired.isChoice_eq rfl).symm
  obtain ⟨hchoices, hbehind⟩ := hbeside.choices hchoice h.isChoice_place hhead
  rcases hbeside.cases_head with ⟨rfl, rfl⟩ | rfl | ⟨id, rest, more, rfl, rfl⟩
  · exact .done
  · exact absurd rfl hhead
  · refine .next rfl hbeside.tail ?_ ?_
    · rw [hchoices, List.forall₂_map_right_iff, List.forall₂_same]
      exact fun _ _ => rfl
    · rw [hchoices, List.length_map]
      exact hbehind

end Remarked

section Shaped

variable {tree other : Tree} {level more : Nat → Nat} {place parent child : NodeId}

private theorem Shaped.around_mem_children_iff (h : tree.Shaped level) (hother : other.Shaped more)
    (hsize : other.size = tree.size + 1) (hin : place < tree.size)
    (hkept : ∀ id, more (around place id) = level id) (hdeep : level place ≤ more place) :
    around place child ∈ other.children (around place parent) ↔ child ∈ tree.children parent := by
  rw [h.mem_children_iff, hother.mem_children_iff, hsize, around_lt_succ_iff (Nat.le_of_lt hin)]
  exact and_congr_right fun _ =>
    ⟨fun hparent => hparent.of_remarked hkept, fun hparent => hparent.remarked hkept hdeep⟩

/-- Where the remark hangs, it comes right before its node, or last if that is further up. -/
theorem Shaped.children_around (h : tree.Shaped level) (hother : other.Shaped more)
    (hsize : other.size = tree.size + 1) (hin : place < tree.size)
    (hkept : ∀ id, more (around place id) = level id) (hdeep : level place ≤ more place)
    (parent : NodeId) :
    other.children (around place parent) = (tree.children parent).map (around place) ∨
    ∃ front back, IsParent more (around place parent) place ∧
      tree.children parent = front ++ back ∧
      other.children (around place parent) =
        front.map (around place) ++ place :: back.map (around place) ∧
      (level place = more place → back.head? = some place) ∧
      (level place < more place → back = []) := by
  have hmem (child : NodeId) : around place child ∈ other.children (around place parent) ↔
      child ∈ tree.children parent :=
    h.around_mem_children_iff hother hsize hin hkept hdeep
  have hplace : place ∈ other.children (around place parent) ↔
      IsParent more (around place parent) place := by
    rw [hother.mem_children_iff, hsize]
    exact and_iff_right (Nat.lt_succ_of_lt hin)
  by_cases hparent : IsParent more (around place parent) place
  · have hsorted := h.sorted parent
    obtain ⟨front, back, hsplit, hfront, hback⟩ := exists_split_of_sorted hsorted place
    rw [hsplit] at hsorted
    refine .inr ⟨front, back, hparent, hsplit, ?_, fun hsame => ?_, fun hlow => ?_⟩
    · refine eq_of_sorted (hother.sorted _) (sorted_around_split hsorted hfront hback) ?_
      intro child
      rcases eq_or_exists_around place child with rfl | ⟨id, rfl⟩
      · exact iff_of_true (hplace.mpr hparent) (List.mem_append_right _ List.mem_cons_self)
      · rw [hmem, hsplit, List.mem_append, List.mem_append, List.mem_cons,
          mem_map_around_iff, mem_map_around_iff, or_iff_right (around_ne place id)]
    · have hchild := (h.mem_children_iff parent place).mpr ⟨hin, hparent.of_place hkept hsame⟩
      rw [hsplit, List.mem_append] at hchild
      exact head?_eq_of_sorted (List.pairwise_append.mp hsorted).2.1 hback
        (hchild.resolve_left fun hbefore => Nat.lt_irrefl _ (hfront place hbefore))
    · refine List.eq_nil_iff_forall_not_mem.mpr fun child hchild => ?_
      refine not_isParent_behind hkept hlow hparent (hback child hchild) ?_
      refine ((h.mem_children_iff parent child).mp ?_).2
      rw [hsplit]
      exact List.mem_append_right front hchild
  · refine .inl (eq_of_sorted (hother.sorted _) (sorted_map_around (h.sorted parent)) ?_)
    intro child
    rcases eq_or_exists_around place child with rfl | ⟨id, rfl⟩
    · exact iff_of_false (fun hchild => hparent (hplace.mp hchild)) (place_notMem_map_around _ _)
    · rw [hmem, mem_map_around_iff]

end Shaped
end Tree
end Dialogue
