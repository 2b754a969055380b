import Dialogue.Proofs.Tree.Sketch
import Dialogue.Tree.Draft

/-! The open blocks. They form the rightmost branch of the tree, from the latest section or
the root down to the innermost block, and no level is left out. -/
namespace Dialogue
namespace Sketch

variable {entries : List Entry} {entry : Entry} {id outer : Nat} {opened below : List Nat}

/-- The open blocks of a sketch, innermost first. -/
inductive Branch (entries : List Entry) : List Nat → Prop
  | scope {id : Nat} (hscope : isScopeAt entries id = true)
      (hlast : ∀ other, isScopeAt entries other = true → other ≤ id)
      (hright : IsRightmost entries id) : Branch entries [id]
  | block {id outer : Nat} {below : List Nat} (hblock : isBlockAt entries id = true)
      (hscope : isScopeAt entries id = false) (hright : IsRightmost entries id)
      (hlevel : levelAt entries id = levelAt entries outer + 1)
      (hrest : Branch entries (outer :: below)) : Branch entries (id :: outer :: below)

namespace Branch

theorem ne_nil (h : Branch entries opened) : opened ≠ [] := by
  cases h <;> exact List.cons_ne_nil _ _

theorem isBlockAt_head (h : Branch entries (id :: below)) : isBlockAt entries id = true := by
  cases h with
  | scope hscope => exact isBlockAt_of_isScopeAt hscope
  | block hblock => exact hblock

theorem isRightmost_head (h : Branch entries (id :: below)) : IsRightmost entries id := by
  cases h with
  | scope _ _ hright => exact hright
  | block _ _ hright => exact hright

theorem append (h : Branch entries (id :: below)) (hlevel : levelAt entries id < entry.level)
    (hscope : entry.mark.label.isScope = false) : Branch (entries ++ [entry]) (id :: below) := by
  generalize hopened : id :: below = opened at h
  induction h generalizing id below with
  | scope hbase hlast hright =>
    obtain ⟨rfl, rfl⟩ := List.cons.inj hopened
    refine .scope (isScopeAt_append hright.lt ▸ hbase) (fun other hother => ?_)
      (hright.append hlevel)
    rcases eq_length_or_isScopeAt hother with ⟨_, hnew⟩ | ⟨_, hold⟩
    · rw [hscope] at hnew
      contradiction
    · exact hlast other hold
  | block hblock hinner hright hstep hrest ih =>
    obtain ⟨rfl, rfl⟩ := List.cons.inj hopened
    have houter := hrest.isRightmost_head.lt
    refine .block (isBlockAt_append hright.lt ▸ hblock) (isScopeAt_append hright.lt ▸ hinner)
      (hright.append hlevel) ?_ (ih (by omega) rfl)
    rw [levelAt_append hright.lt, levelAt_append houter, hstep]

theorem appendBlock (h : Branch entries (id :: below))
    (hlevel : entry.level = levelAt entries id + 1) (hblock : entry.mark.label.isBlock = true)
    (hscope : entry.mark.label.isScope = false) :
    Branch (entries ++ [entry]) (entries.length :: id :: below) := by
  refine .block ?_ ?_ (isRightmost_length entry) ?_ (h.append (by omega) hscope)
  · rw [isBlockAt, labelAt?_length, Option.any_some, hblock]
  · rw [isScopeAt, labelAt?_length, Option.any_some, hscope]
  · rw [levelAt_length, levelAt_append h.isRightmost_head.lt, hlevel]

theorem appendScope (hscope : entry.mark.label.isScope = true) :
    Branch (entries ++ [entry]) [entries.length] := by
  refine .scope ?_ (fun other hother => ?_) (isRightmost_length entry)
  · rw [isScopeAt, labelAt?_length, Option.any_some, hscope]
  · rcases eq_length_or_isScopeAt hother with ⟨rfl, _⟩ | ⟨hold, _⟩
    · exact Nat.le_refl _
    · exact Nat.le_of_lt hold

theorem congr {others : List Entry} (h : Branch entries opened)
    (hlength : others.length = entries.length)
    (hlevel : ∀ id, levelAt others id = levelAt entries id)
    (hblock : ∀ id, isBlockAt others id = isBlockAt entries id)
    (hscope : ∀ id, isScopeAt others id = isScopeAt entries id) : Branch others opened := by
  have hmoved {id : Nat} (hright : IsRightmost entries id) : IsRightmost others id := by
    refine ⟨hlength ▸ hright.lt, fun later hlo hhi => ?_⟩
    rw [hlevel, hlevel]
    exact hright.level_lt later hlo (hlength ▸ hhi)
  induction h with
  | scope hbase hlast hright =>
    refine .scope ((hscope _).trans hbase) (fun other hother => ?_) (hmoved hright)
    exact hlast other (hscope other ▸ hother)
  | block hinner hplain hright hstep _ ih =>
    refine .block ((hblock _).trans hinner) ((hscope _).trans hplain) (hmoved hright) ?_ ih
    rw [hlevel, hlevel, hstep]

theorem drop (h : Branch entries opened) {count : Nat} (hcount : count < opened.length) :
    Branch entries (opened.drop count) := by
  induction count generalizing opened with
  | zero => exact h
  | succ count ih =>
    cases h with
    | scope => simp at hcount
    | block _ _ _ _ hrest => exact ih hrest (Nat.lt_of_succ_lt_succ hcount)

end Branch
end Sketch

namespace Draft

variable {tree : Tree} {entries : List Entry} {opened : List NodeId}

/-- Whatever the lines of a script are, a dedent never stops at a section. -/
theorem dedent_eq (hdrawn : tree.Drawn entries) (hbranch : Sketch.Branch entries opened)
    {depth : Nat} (hpos : 0 < depth) (hdepth : depth ≤ opened.length) (line : Nat) :
    ∃ closed, dedent depth line tree opened =
        (true, ⟨closed, opened.drop (opened.length - depth)⟩) ∧
      closed.Drawn entries ∧ closed.names = tree.names ∧
        closed.target? = tree.target? := by
  induction hbranch generalizing tree with
  | @scope id _ _ _ =>
    have hone : depth = 1 := Nat.le_antisymm hdepth hpos
    subst hone
    exact ⟨tree, by simp [dedent], hdrawn, rfl, rfl⟩
  | @block id outer below _ hscope _ _ _ ih =>
    unfold dedent
    by_cases hfits : (outer :: below).length < depth
    · have hall : depth = (id :: outer :: below).length := by
        rw [List.length_cons] at hdepth ⊢
        omega
      rw [if_pos hfits, hall, Nat.sub_self]
      exact ⟨tree, rfl, hdrawn, rfl, rfl⟩
    · have hplain : tree.isScope id = false := (hdrawn.isScope id).trans hscope
      obtain ⟨closed, hclosed, hrest, hnames, htargets⟩ :=
        ih (hdrawn.close line id) (Nat.le_of_not_lt hfits)
      have hlength : (id :: outer :: below).length - depth =
          (outer :: below).length - depth + 1 := by
        rw [List.length_cons]
        omega
      rw [if_neg hfits, hplain, hlength, List.drop_succ_cons]
      refine ⟨closed, hclosed, hrest, hnames, htargets.trans ?_⟩
      exact funext fun other => Tree.target?_close ..

theorem drawn_closeAll {draft : Draft} (h : draft.tree.Drawn entries) (line : Nat) :
    (draft.closeAll line).tree.Drawn entries := by
  obtain ⟨tree, opened⟩ := draft
  show (opened.foldl (Tree.close · line ·) tree).Drawn entries
  induction opened generalizing tree with
  | nil => exact h
  | cons id below ih => exact ih (tree.close line id) (h.close line id)

theorem names_closeAll (draft : Draft) (line : Nat) :
    (draft.closeAll line).tree.names = draft.tree.names := by
  obtain ⟨tree, opened⟩ := draft
  show (opened.foldl (Tree.close · line ·) tree).names = tree.names
  induction opened generalizing tree with
  | nil => rfl
  | cons id below ih => exact ih (tree.close line id)

theorem target?_closeAll (draft : Draft) (line : Nat) (id : NodeId) :
    (draft.closeAll line).tree.target? id = draft.tree.target? id := by
  obtain ⟨tree, opened⟩ := draft
  show (opened.foldl (Tree.close · line ·) tree).target? id = tree.target? id
  induction opened generalizing tree with
  | nil => rfl
  | cons inner below ih => exact (ih (tree.close line inner)).trans (Tree.target?_close ..)

end Draft
end Dialogue
