import Mathlib.Data.List.Chain
import Dialogue.Proofs.Parse.Trial

/-! Commands side by side. A command line goes on with the last command if that is of its level,
so no command is followed at once by another one that could have been the same. -/
namespace Dialogue

private theorem Entry.isCommand_extend (text : String) (entry : Entry) :
    (entry.extend text).isCommand = entry.isCommand := by
  obtain ⟨level, line, column, label⟩ := entry
  cases label with
  | leaf => rfl
  | block block children => cases block <;> rfl

namespace Sketch

variable {entries : List Entry} {depth number : Nat}

/-- No command is followed at once by another one of its level. -/
def Apart (entries : List Entry) : Prop :=
  ∀ id entry next, entries[id]? = some entry → entries[id + 1]? = some next →
    entry.isCommand = true → next.isCommand = true → entry.level ≠ next.level

namespace Apart

private theorem append (h : Apart entries) {entry : Entry}
    (hnew : entry.isCommand = true → extensible? entries entry.level = none) :
    Apart (entries ++ [entry]) := by
  intro id first next hfirst hnext hcommand hcommand' hlevel
  rcases Nat.lt_trichotomy (id + 1) entries.length with hold | hend | hbehind
  · rw [List.getElem?_append_left (by omega)] at hfirst
    rw [List.getElem?_append_left hold] at hnext
    exact h id first next hfirst hnext hcommand hcommand' hlevel
  · rw [List.getElem?_append_left (by omega)] at hfirst
    rw [hend, List.getElem?_concat_length] at hnext
    obtain rfl := Option.some.inj hnext
    have hsome := extensible?_eq_some_iff.mpr ⟨hend, first, hfirst, hcommand, hlevel⟩
    rw [hnew hcommand'] at hsome
    contradiction
  · rw [List.getElem?_eq_none (by simp; omega)] at hnext
    contradiction

private theorem extend (h : Apart entries) (last : Nat) (text : String) :
    Apart (entries.modify last (Entry.extend text)) := by
  intro id first next hfirst hnext
  have hkept {id : Nat} {entry : Entry}
      (hentry : (entries.modify last (Entry.extend text))[id]? = some entry) :
      ∃ old, entries[id]? = some old ∧ old.isCommand = entry.isCommand ∧
        old.level = entry.level := by
    rw [getElem?_extend] at hentry
    split at hentry
    · obtain ⟨old, hold, rfl⟩ := Option.map_eq_some_iff.mp hentry
      exact ⟨old, hold, (Entry.isCommand_extend text old).symm, rfl⟩
    · exact ⟨entry, hentry, rfl, rfl⟩
  obtain ⟨first', hfirst', hcommand, hlevel⟩ := hkept hfirst
  obtain ⟨next', hnext', hcommand', hlevel'⟩ := hkept hnext
  rw [← hcommand, ← hcommand', ← hlevel, ← hlevel']
  exact h id first' next' hfirst' hnext'

private theorem grow (h : Apart entries) (growth : Growth) :
    Apart (grow entries depth number growth) := by
  cases growth with
  | nothing => exact h
  | leaf => exact h.append nofun
  | choice => exact h.append nofun
  | scope => exact h.append nofun
  | command column text =>
    simp only [Sketch.grow]
    split
    next last _ => exact h.extend last text
    next hnone => exact h.append fun _ => hnone

end Apart
end Sketch

theorem Reading.apart {options : Options} {checker : Checker} {lines : List String}
    {reading : Reading} (h : read options checker lines = .ok reading) :
    Sketch.Apart reading.entries := by
  refine read_of_invariant (P := fun reading => Sketch.Apart reading.entries) ?_ ?_ h
  · intro reading text _ next hold hfeed
    rcases feed_cases hfeed with ⟨_, rfl⟩ | ⟨line, _, ⟨_, rfl⟩ | ⟨_, _, rfl⟩⟩
    · exact hold
    · exact hold
    · exact hold.grow _
  · intro id entry next _ hnext
    contradiction

theorem le_or_le_of_mem {ids : List Nat} (h : ids.Pairwise (· < ·)) {i : Nat}
    (hi : i + 1 < ids.length) {id : Nat} (hid : id ∈ ids) : id ≤ ids[i] ∨ ids[i + 1] ≤ id := by
  obtain ⟨j, hj, rfl⟩ := List.getElem_of_mem hid
  have hsorted := List.pairwise_iff_getElem.mp h
  rcases Nat.lt_trichotomy j i with hless | rfl | hmore
  · exact .inl (Nat.le_of_lt (hsorted j i hj _ hless))
  · exact .inl (Nat.le_refl _)
  · rcases Nat.lt_or_eq_of_le (Nat.succ_le_of_lt hmore) with hbehind | rfl
    · exact .inr (Nat.le_of_lt (hsorted (i + 1) j hi hj hbehind))
    · exact .inr (Nat.le_refl _)

/-- Right behind a node that has a later sibling comes a sibling or what hangs on the node. -/
theorem IsParent.child_or_sibling {level : Nat → Nat} {id child next : Nat}
    (hchild : IsParent level id child) (hnext : IsParent level id next) (hlt : child < next)
    (hstep : level (child + 1) ≤ level child + 1) :
    IsParent level child (child + 1) ∨ IsParent level id (child + 1) := by
  have hbehind := Nat.lt_succ_of_lt hchild.lt
  have hlevel := hchild.level_eq
  have hle : level child ≤ level (child + 1) := by
    rcases Nat.lt_or_eq_of_le (Nat.succ_le_of_lt hlt) with hbefore | rfl
    · have hbetween := hnext.le_between (child + 1) hbehind hbefore
      have hlevel' := hnext.level_eq
      omega
    · exact Nat.le_of_eq (hlevel.trans hnext.level_eq.symm)
  by_cases hdeep : level (child + 1) = level child + 1
  · exact .inl ⟨Nat.lt_succ_self child, hdeep, fun node hlo hhi => by omega⟩
  · refine .inr ⟨hbehind, by omega, fun node hlo hhi => ?_⟩
    rcases Nat.lt_or_eq_of_le (Nat.le_of_lt_succ hhi) with hbefore | rfl
    · have hbetween := hchild.le_between node hlo hbefore
      omega
    · omega

namespace Tree.Drawn

variable {tree : Tree} {entries : List Entry}

private theorem exists_entry_of_command? (h : tree.Drawn entries) {id : Nat}
    (hcommand : tree.command? id ≠ none) :
    ∃ entry, entries[id]? = some entry ∧ entry.isCommand = true := by
  obtain ⟨text, htext⟩ := Option.ne_none_iff_exists'.mp hcommand
  obtain ⟨span, children, hnode⟩ := exists_node_of_command? htext
  have hmark := h.mark? id
  rw [Tree.mark?, hnode, Option.map_some] at hmark
  obtain ⟨⟨level, mark⟩, hentry, rfl⟩ := Option.map_eq_some_iff.mp hmark.symm
  exact ⟨_, hentry, rfl⟩

theorem eq_succ_of_children_eq_nil (h : tree.Drawn entries) {id i : Nat}
    (hi : i + 1 < (tree.children id).length) (hnone : tree.children (tree.children id)[i] = []) :
    (tree.children id)[i + 1] = (tree.children id)[i] + 1 := by
  have hsorted := h.shaped.sorted id
  obtain ⟨_, hchild⟩ :=
    (h.shaped.mem_children_iff id _).mp (List.getElem_mem (Nat.lt_of_succ_lt hi))
  obtain ⟨hin, hnext⟩ := (h.shaped.mem_children_iff id _).mp (List.getElem_mem hi)
  have hlt := List.pairwise_iff_getElem.mp hsorted i (i + 1) (Nat.lt_of_succ_lt hi) hi
    (Nat.lt_succ_self i)
  have hmiddle := Nat.lt_of_le_of_lt (Nat.succ_le_of_lt hlt) hin
  have hstep := h.shaped.level_le _ (Nat.succ_pos _) hmiddle
  rcases hchild.child_or_sibling hnext hlt hstep with hbelow | hbeside
  · have hmem := (h.shaped.mem_children_iff _ _).mpr ⟨hmiddle, hbelow⟩
    rw [hnone] at hmem
    contradiction
  · have hmem := (h.shaped.mem_children_iff _ _).mpr ⟨hmiddle, hbeside⟩
    rcases le_or_le_of_mem hsorted hi hmem with hle | hle
    · exact absurd hle (Nat.not_succ_le_self _)
    · exact Nat.le_antisymm hle (Nat.succ_le_of_lt hlt)

theorem isChain_commands (h : tree.Drawn entries) (hapart : Sketch.Apart entries) (id : NodeId) :
    (tree.children id).IsChain fun child next => tree.command? child ≠ none →
      tree.command? next ≠ none → tree.children child ≠ [] := by
  rw [List.isChain_iff_getElem]
  intro i hi hcommand hcommand' hnone
  have hnext := h.eq_succ_of_children_eq_nil hi hnone
  obtain ⟨_, hparent⟩ := (h.shaped.mem_children_iff id _).mp (List.getElem_mem (Nat.lt_of_succ_lt hi))
  obtain ⟨_, hparent'⟩ := (h.shaped.mem_children_iff id _).mp (List.getElem_mem hi)
  obtain ⟨entry, hentry, hfirst⟩ := h.exists_entry_of_command? hcommand
  obtain ⟨next, hentry', hsecond⟩ := h.exists_entry_of_command? hcommand'
  have hlevel := hparent.level_eq.trans hparent'.level_eq.symm
  rw [Sketch.levelAt, Sketch.levelAt, hentry, hentry'] at hlevel
  rw [hnext] at hentry'
  exact hapart _ entry next hentry hentry' hfirst hsecond hlevel

end Tree.Drawn
end Dialogue
