import Mathlib.Data.List.Nodup
import Dialogue.Proofs.Parse.Ledger
import Dialogue.Proofs.Tree.Traversal

/-! The array of nodes as a tree. Before the review every node hangs in one place, the numbers
are those of the pre-order, and sections come last. After it the walk yields what still hangs
on the root, in the same order, and whatever number is stored is that of a node. -/
namespace Dialogue

/-- A tree as it is read, with all its commands. -/
structure Tree.Arranged (tree : Tree) : Prop where
  hung : ∀ id, id ≠ root → id < tree.size → ∃ parent < id, (tree.children parent).count id = 1 ∧
    ∀ other, other ≠ parent → (tree.children other).count id = 0
  forward : tree.Forward
  sorted : ∀ id, (tree.children id).Pairwise fun child next =>
    child < next ∧ tree.lineOf child < tree.lineOf next
  blocks : ∀ id, tree.children id ≠ [] → tree.isBlock id = true
  rooted : tree.label? root = some (.block (.scope none) [])
  keyed : ∀ id, tree.label? id = some (.block (.scope none) []) → id = root
  sections : ∀ id, id ≠ root → tree.isScope id = true → id ∈ tree.children root
  sections_last : (tree.children root).Pairwise fun child next =>
    tree.isScope child = true → tree.isScope next = true
  walk : tree.walk = List.range' 1 (tree.size - 1)

/-- A tree from which some commands are cut off. -/
structure Tree.Walkable (tree : Tree) : Prop where
  drains : tree.Drains (tree.children root).reverse tree.walk
  mem_walk : ∀ id, id ∈ tree.walk ↔ id ≠ root ∧ tree.Within root id
  sorted : tree.walk.Pairwise fun id next => id < next ∧ tree.lineOf id < tree.lineOf next
  sections : ∀ id < tree.size, tree.isScope id = true → tree.Within root id
  children_lt : ∀ id, ∀ child ∈ tree.children id, child < tree.size
  target_lt : ∀ id target, tree.target? id = some target → target < tree.size
  names_lt : ∀ name ∈ tree.names, name.2 < tree.size

theorem Tree.exists_jump_of_target? {tree : Tree} {id target : NodeId}
    (h : tree.target? id = some target) :
    ∃ span key, tree.get? id = some ⟨span, .leaf (.jump key (some target))⟩ := by
  obtain ⟨⟨span, content⟩, hnode, htarget⟩ := Option.bind_eq_some_iff.mp h
  cases content with
  | block => contradiction
  | leaf leaf =>
    cases leaf with
    | jump key found =>
      obtain rfl : found = some target := htarget
      exact ⟨span, key, hnode⟩
    | _ => contradiction

namespace Sketch

variable {entries : List Entry}

theorem lt_length_of_mem_names {name : String × NodeId} (h : name ∈ names entries) :
    name.2 < entries.length := by
  rw [← entries.reverse_reverse] at h ⊢
  generalize entries.reverse = before at h ⊢
  induction before with
  | nil => contradiction
  | cons entry before ih =>
    rw [List.reverse_cons, names_append] at h
    rw [List.reverse_cons, List.length_append, List.length_singleton]
    cases hkey : entry.key? with
    | none =>
      rw [hkey] at h
      exact Nat.lt_succ_of_lt (ih h)
    | some key =>
      rw [hkey, declare] at h
      split at h
      · rcases List.mem_append.mp h with hold | hnew
        · exact Nat.lt_succ_of_lt (ih hold)
        · rw [List.mem_singleton.mp hnew]
          exact Nat.lt_succ_self _
      · exact Nat.lt_succ_of_lt (ih h)

end Sketch

section Parse

variable {options : Options} {checker : Checker} {lines : List String} {script : Script}
  {reading : Reading} {whole : Tree} {asked : Array Query}

theorem Script.Settled.lineOf_lt_lineOf (h : script.Settled checker asked reading whole)
    (hread : Reading.read options checker lines = .ok reading) {id next : Nat} (hpos : 0 < id)
    (hlt : id < next) (hnext : next < whole.size) : whole.lineOf id < whole.lineOf next := by
  rw [h.drawn.lineOf, h.drawn.lineOf]
  exact Progress.lineAt_lt_lineAt hread hpos hlt (h.drawn.size_eq ▸ hnext)

theorem Script.Settled.mem_children_root (h : script.Settled checker asked reading whole)
    {id : Nat} (hne : id ≠ Tree.root) (hscope : whole.isScope id = true) :
    id ∈ whole.children Tree.root :=
  h.drawn.mem_children_root h.regular hne (h.drawn.isScope id ▸ hscope)

theorem Script.Settled.arranged (h : script.Settled checker asked reading whole)
    (hread : Reading.read options checker lines = .ok reading) : whole.Arranged := by
  have hshaped := h.drawn.shaped
  have hregular := h.regular
  constructor
  · intro id hne hid
    obtain ⟨parent, hchild⟩ := hshaped.exists_parent (Nat.pos_of_ne_zero hne) hid
    have hparent := ((hshaped.mem_children_iff parent id).mp hchild).2
    have hnodup : (whole.children parent).Nodup := (hshaped.sorted parent).imp Nat.ne_of_lt
    refine ⟨parent, hparent.lt, List.count_eq_one_of_mem hnodup hchild, fun other hother => ?_⟩
    refine List.count_eq_zero.mpr fun hmem => hother ?_
    exact ((hshaped.mem_children_iff other id).mp hmem).2.eq hparent
  · exact hshaped.forward
  · intro id
    refine (hshaped.sorted id).imp_of_mem fun {child next} hchild hnext hlt => ⟨hlt, ?_⟩
    have hpos := Nat.zero_lt_of_lt (hshaped.forward id child hchild).1
    exact h.lineOf_lt_lineOf hread hpos hlt (hshaped.forward id next hnext).2
  · intro id hne
    refine Bool.of_not_eq_false fun hleaf => ?_
    exact hne (Tree.children_of_not_isBlock hleaf)
  · rw [h.drawn.label?, Sketch.labelAt?, Tree.root, hregular.root]
    rfl
  · intro id hlabel
    refine Decidable.byContradiction fun hne => ?_
    rw [h.drawn.label?] at hlabel
    have hscope : Sketch.isScopeAt reading.entries id = true := by
      rw [Sketch.isScopeAt, hlabel]
      rfl
    obtain ⟨key, hkey⟩ := hregular.section_key id (Nat.pos_of_ne_zero hne) hscope
    rw [hlabel] at hkey
    cases hkey
  · intro id hne hscope
    exact h.mem_children_root hne hscope
  · refine (hshaped.sorted Tree.root).imp_of_mem fun {child next} hchild hnext hlt hscope => ?_
    obtain ⟨hin, hedge⟩ := (hshaped.mem_children_iff _ next).mp hnext
    have hpos := Nat.zero_lt_of_lt (hshaped.forward Tree.root child hchild).1
    have hlevel := hedge.level_eq
    rw [hshaped.level_root] at hlevel
    rw [h.drawn.isScope] at hscope ⊢
    exact hregular.sections_last child next hpos hscope hlt (h.drawn.size_eq ▸ hin) hlevel
  · exact hshaped.walk_eq

theorem Script.Settled.walkable (h : script.Settled checker asked reading whole)
    (hread : Reading.read options checker lines = .ok reading) : script.tree.Walkable := by
  have hshaped := h.drawn.shaped
  have hpruned := h.pruned
  have hsize : script.tree.size = whole.size := hpruned.size_eq.trans h.drawn.size_eq.symm
  have hlines (id : NodeId) : script.tree.lineOf id = whole.lineOf id :=
    (hpruned.lineOf id).trans (h.drawn.lineOf id).symm
  have hscopes (id : NodeId) : script.tree.isScope id = whole.isScope id :=
    (hpruned.isScope id).trans (h.drawn.isScope id).symm
  have hforward : script.tree.Forward := h.tree ▸ hshaped.forward.detach _
  have hnames (key : String) (id : NodeId) (hfind : script.tree.find? key = some id) :
      id < script.tree.size :=
    Tree.lt_size_of_label? (hpruned.label?_of_find? hfind).2
  constructor
  · exact hforward.drains_walk
  · intro id
    exact hforward.mem_walk_iff
  · have hwalk : whole.walk.Pairwise fun id next =>
        id < next ∧ whole.lineOf id < whole.lineOf next := by
      have hrange : whole.walk.Pairwise (· < ·) := hshaped.walk_eq ▸ List.pairwise_lt_range'
      refine hrange.imp_of_mem fun {id next} hid hnext hlt => ⟨hlt, ?_⟩
      exact h.lineOf_lt_lineOf hread (hshaped.mem_walk_iff.mp hid).1 hlt
        (hshaped.mem_walk_iff.mp hnext).2
    simp only [hlines]
    rw [h.tree]
    exact hwalk.sublist (whole.walk_detach_sublist _)
  · intro id hid hscope
    rw [hscopes] at hscope
    by_cases hne : id = Tree.root
    · exact hne ▸ .self
    · refine .child .self ?_
      rw [h.tree, Tree.children_detach, List.mem_filter]
      refine ⟨h.mem_children_root hne hscope, decide_eq_true fun hcut => ?_⟩
      exact Review.not_mem_rejections_of_isScope hscope (List.mem_reverse.mp hcut)
  · intro id child hchild
    exact (hforward id child hchild).2
  · intro id target htarget
    obtain ⟨span, key, hnode⟩ := Tree.exists_jump_of_target? htarget
    exact hnames key target (hpruned.find?_eq_of_jump hnode)
  · rintro ⟨key, id⟩ hmem
    rw [hpruned.names] at hmem
    rw [hpruned.size_eq]
    exact Sketch.lt_length_of_mem_names hmem

end Parse

/-- What the review does to a tree that is well arranged. -/
theorem arranged_of_ok {options : Options} {checker : Checker} {lines : List String}
    {script : Script} (h : (parseLines options checker lines).result = .ok script) :
    (Progress.read options checker lines).linked.Arranged ∧ script.tree.Walkable ∧
      ∃ rejected, script.tree = (Progress.read options checker lines).linked.detach rejected := by
  obtain ⟨reading, hread, hsettled⟩ := settled_of_ok h
  exact ⟨hsettled.arranged hread, hsettled.walkable hread, _, hsettled.tree⟩

/-- The command on the second line is rejected, and the walk goes on behind its body. -/
theorem arranged_of_rejected_command :
    let checker : Checker := ⟨fun _ query => if query.text = "bad" then some ⟨"no"⟩ else none⟩
    let lines := ["= one", "# bad", "\tlost", "kept", "-> two", "= two"]
    let whole := (Progress.read {} checker lines).linked
    ∃ script, (parseLines {} checker lines).result = .ok script ∧ whole.Arranged ∧
      script.tree.Walkable ∧ (∃ rejected, script.tree = whole.detach rejected) ∧
      whole.walk = [1, 2, 3, 4, 5, 6] ∧ script.tree.walk = [1, 4, 5, 6] := by
  intro checker lines whole
  have hparsed : (parseLines {} checker lines).result.toOption.map (·.tree.walk) =
      some [1, 4, 5, 6] := by
    decide +kernel
  obtain ⟨script, hparse, hwalk⟩ := exists_ok_of_map_toOption hparsed
  obtain ⟨hwhole, hwalkable, hcut⟩ := arranged_of_ok hparse
  exact ⟨script, hparse, hwhole, hwalkable, hcut, by decide +kernel, hwalk⟩

end Dialogue
