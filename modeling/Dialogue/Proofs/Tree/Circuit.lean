import Mathlib.Data.List.Perm.Subperm
import Mathlib.Logic.Relation
import Dialogue.Proofs.Tree.Traversal

/-! Circuits of jumps. Sections lead to the sections that their jumps have as targets. Where
none leads back to itself, what a node may bring into play is bounded, and so is its cost. -/
namespace Dialogue

def total {α : Type} (weight : α → Nat) : List α → Nat
  | [] => 0
  | value :: rest => weight value + total weight rest

@[simp] theorem total_nil {α : Type} (weight : α → Nat) : total weight [] = 0 := rfl

@[simp] theorem total_cons {α : Type} (weight : α → Nat) (value : α) (rest : List α) :
    total weight (value :: rest) = weight value + total weight rest := rfl

@[simp] theorem total_append {α : Type} (weight : α → Nat) (front back : List α) :
    total weight (front ++ back) = total weight front + total weight back := by
  induction front with
  | nil => rw [List.nil_append, total_nil, Nat.zero_add]
  | cons value rest ih => rw [List.cons_append, total_cons, total_cons, ih, Nat.add_assoc]

theorem total_le_of_sublist {α : Type} (weight : α → Nat) {part whole : List α}
    (h : part.Sublist whole) : total weight part ≤ total weight whole := by
  induction h with
  | slnil => exact Nat.le_refl _
  | cons value _ ih => exact Nat.le_trans ih (Nat.le_add_left _ _)
  | cons_cons value _ ih => exact Nat.add_le_add_left ih _

private theorem total_congr {α : Type} {weight other : α → Nat} {values : List α}
    (h : ∀ value ∈ values, weight value = other value) :
    total weight values = total other values := by
  induction values with
  | nil => rfl
  | cons value rest ih =>
    obtain ⟨hvalue, hrest⟩ := List.forall_mem_cons.mp h
    rw [total_cons, total_cons, hvalue, ih hrest]

namespace Tree

/-- `id` is a section or belongs to its content. What hangs on a section further in is content
of that one alone. -/
inductive Inside (tree : Tree) (scope : NodeId) : NodeId → Prop
  | self : Inside tree scope scope
  | child {parent child : NodeId} (hparent : Inside tree scope parent)
      (hchild : child ∈ tree.children parent) (hcontent : tree.isScope child = false) :
      Inside tree scope child

def Leads (tree : Tree) (scope target : NodeId) : Prop :=
  tree.isScope scope = true ∧ ∃ id, tree.Inside scope id ∧ tree.target? id = some target

def Acyclic (tree : Tree) : Prop := ∀ scope, ¬ Relation.TransGen tree.Leads scope scope

structure Laid (tree : Tree) : Prop where
  forward : tree.Forward
  hung : ∀ parent child, child ∈ tree.children parent → tree.isScope child = true → parent = root
  target : ∀ id target, tree.target? id = some target →
    tree.isScope target = true ∧ target ≠ root ∧ target < tree.size

/-- What comes into play with a node: its children, or the section to which it jumps. -/
def brings (tree : Tree) (id : NodeId) : List NodeId :=
  tree.children id ++ (tree.target? id).toList

def Brings (tree : Tree) (id next : NodeId) : Prop := next ∈ tree.brings id

def costWithin (tree : Tree) : Nat → NodeId → Nat
  | 0, _ => 0
  | levels + 1, id => 2 + total (tree.costWithin levels) (tree.brings id)

/-- How many moves it may take to play a node with all that it brings into play. A way that does
not come back to a node has no more levels than there are nodes. -/
def cost (tree : Tree) (id : NodeId) : Nat := tree.costWithin (tree.size + 1) id

variable {tree : Tree} {scope id target : NodeId} {levels : Nat}

theorem mem_brings_iff {other : NodeId} :
    other ∈ tree.brings id ↔ other ∈ tree.children id ∨ tree.target? id = some other := by
  rw [brings, List.mem_append, Option.mem_toList]

theorem Inside.within (h : tree.Inside scope id) : tree.Within scope id := by
  induction h with
  | self => exact .self
  | child _ hchild _ ih => exact .child ih hchild

theorem Forward.le_of_within (h : tree.Forward) (hwithin : tree.Within scope id) : scope ≤ id := by
  induction hwithin with
  | self => exact Nat.le_refl _
  | child _ hchild ih => exact Nat.le_trans ih (Nat.le_of_lt (h _ _ hchild).1)

namespace Laid

theorem inside_iff_within (h : tree.Laid) (hne : scope ≠ root) :
    tree.Inside scope id ↔ tree.Within scope id := by
  refine ⟨Inside.within, fun hwithin => ?_⟩
  induction hwithin with
  | self => exact .self
  | @child parent child hparent hchild ih =>
    refine .child ih hchild (Bool.eq_false_iff.mpr fun hscope => hne ?_)
    have hle := h.forward.le_of_within hparent
    rw [h.hung parent child hchild hscope] at hle
    exact Nat.le_zero.mp hle

/-- What comes into play after a node hangs on it, or comes by way of a jump that does, and of
sections that lead from one to the next. -/
theorem below_or_leads (h : tree.Laid) {other : NodeId}
    (hway : Relation.TransGen tree.Brings id other) :
    (id < other ∧ tree.Within id other) ∨
      ∃ jump first last, tree.Within id jump ∧ tree.target? jump = some first ∧ last ≠ root ∧
        tree.isScope last = true ∧ Relation.ReflTransGen tree.Leads first last ∧
        tree.Within last other := by
  have hjump {jump target : NodeId} (hwithin : tree.Within id jump)
      (htarget : tree.target? jump = some target) :
      ∃ jump first last, tree.Within id jump ∧ tree.target? jump = some first ∧ last ≠ root ∧
        tree.isScope last = true ∧ Relation.ReflTransGen tree.Leads first last ∧
        tree.Within last target := by
    obtain ⟨hscope, hne, _⟩ := h.target jump target htarget
    exact ⟨jump, target, target, hwithin, htarget, hne, hscope, .refl, .self⟩
  -- The first jump hangs on `id`, and each later one is in the section that the one before
  -- leads to.
  induction hway with
  | single hbrings =>
    rcases mem_brings_iff.mp hbrings with hchild | htarget
    · exact .inl ⟨(h.forward _ _ hchild).1, .child .self hchild⟩
    · exact .inr (hjump .self htarget)
  | tail _ hbrings ih =>
    rcases mem_brings_iff.mp hbrings with hchild | htarget
    · rcases ih with ⟨hlt, hwithin⟩ |
        ⟨jump, first, last, hfrom, hfirst, hne, hscope, hleads, hwithin⟩
      · exact .inl ⟨Nat.lt_trans hlt (h.forward _ _ hchild).1, .child hwithin hchild⟩
      · exact .inr ⟨jump, first, last, hfrom, hfirst, hne, hscope, hleads, .child hwithin hchild⟩
    · rcases ih with ⟨_, hwithin⟩ |
        ⟨jump, first, last, hfrom, hfirst, hne, hscope, hleads, hwithin⟩
      · exact .inr (hjump hwithin htarget)
      · obtain ⟨hnext, hnextNe, _⟩ := h.target _ _ htarget
        have hstep : tree.Leads last _ :=
          ⟨hscope, _, (h.inside_iff_within hne).mpr hwithin, htarget⟩
        exact .inr ⟨jump, first, _, hfrom, hfirst, hnextNe, hnext, hleads.tail hstep, .self⟩

theorem acyclic_of_lt (h : tree.Laid)
    (hlt : ∀ id target, tree.target? id = some target → id < target) : tree.Acyclic := by
  have hleads {scope target : NodeId} (hleads : tree.Leads scope target) : scope < target := by
    obtain ⟨_, id, hinside, htarget⟩ := hleads
    exact Nat.lt_of_le_of_lt (h.forward.le_of_within hinside.within) (hlt id target htarget)
  have hway {scope target : NodeId} (hway : Relation.TransGen tree.Leads scope target) :
      scope < target := by
    induction hway with
    | single hstep => exact hleads hstep
    | tail _ hstep ih => exact Nat.lt_trans ih (hleads hstep)
  exact fun scope hback => Nat.lt_irrefl scope (hway hback)

theorem not_transGen_brings (h : tree.Laid) (hacyclic : tree.Acyclic) (id : NodeId) :
    ¬ Relation.TransGen tree.Brings id id := by
  intro hway
  rcases h.below_or_leads hway with
    ⟨hlt, _⟩ | ⟨jump, first, last, hfrom, hfirst, hne, hscope, hleads, hwithin⟩
  · exact Nat.lt_irrefl _ hlt
  · have hstep : tree.Leads last first :=
      ⟨hscope, jump, (h.inside_iff_within hne).mpr (hwithin.trans hfrom), hfirst⟩
    exact hacyclic last (.head' hstep hleads)

/-- A way on which each node brings the next one into play has at most one node more than the
tree, since only the first may lie outside. -/
theorem length_le_of_isChain (h : tree.Laid) (hacyclic : tree.Acyclic) {way : List NodeId}
    (hway : (id :: way).IsChain tree.Brings) : way.length ≤ tree.size := by
  have hlater : (id :: way).Pairwise (Relation.TransGen tree.Brings) :=
    (hway.imp fun _ _ hbrings => .single hbrings).pairwise
  have hnodup : way.Nodup := by
    refine (List.pairwise_cons.mp hlater).2.imp ?_
    rintro other next hnext rfl
    exact h.not_transGen_brings hacyclic other hnext
  have hin : way ⊆ List.range tree.size := by
    intro next hnext
    obtain ⟨before, _, hbrings⟩ :=
      Relation.TransGen.tail'_iff.mp ((List.pairwise_cons.mp hlater).1 next hnext)
    refine List.mem_range.mpr ?_
    rcases mem_brings_iff.mp hbrings with hchild | htarget
    · exact (h.forward _ _ hchild).2
    · exact (h.target _ _ htarget).2.2
  have hle := (hnodup.subperm hin).length_le
  rwa [List.length_range] at hle

end Laid

/-- Once there are as many levels as a way may have, one more counts for nothing. -/
theorem costWithin_succ (hways : ∀ way : List NodeId,
      (id :: way).IsChain tree.Brings → way.length < levels) :
    tree.costWithin (levels + 1) id = tree.costWithin levels id := by
  induction levels generalizing id with
  | zero => exact absurd (hways [] (.singleton id)) (Nat.not_lt_zero _)
  | succ levels ih =>
    rw [costWithin, costWithin]
    refine congrArg (2 + ·) (total_congr fun next hnext => ih fun way hway => ?_)
    exact Nat.lt_of_succ_lt_succ (hways (next :: way) (List.isChain_cons_cons.mpr ⟨hnext, hway⟩))

/-- A node costs what it brings into play, and two moves for itself: one to pass it and one to
leave it. -/
theorem cost_eq (h : tree.Laid) (hacyclic : tree.Acyclic) (id : NodeId) :
    tree.cost id = 2 + total tree.cost (tree.brings id) := by
  have hways (way : List NodeId)
      (hway : (id :: way).IsChain tree.Brings) :
      way.length < tree.size + 1 := Nat.lt_succ_of_le (h.length_le_of_isChain hacyclic hway)
  exact (costWithin_succ hways).symm

end Tree
end Dialogue
