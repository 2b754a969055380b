import Dialogue.Proofs.Parse.Spans

/-! How far spans reach. A block that is open at a line stays open or is closed behind that line,
so its span goes beyond the line in the end, even if it is opened again in between. -/
namespace Dialogue
namespace Draft

/-- The span of a node goes beyond a line, or the node is open still. -/
def Reaches (draft : Draft) (number : Nat) (id : NodeId) : Prop :=
  id ∈ draft.opened ∨ number < draft.tree.stopOf id

namespace Reaches

variable {draft : Draft} {number line : Nat} {id : NodeId}

theorem closeEach {inner outer : List NodeId} (h : draft.Reaches number id)
    (hopened : draft.opened = inner ++ outer) (hid : id < draft.tree.size)
    (hline : number < line) : Reaches ⟨draft.tree.closeEach line inner, outer⟩ number id := by
  rw [Reaches, hopened, List.mem_append] at h
  by_cases hinner : id ∈ inner
  · right
    rw [Tree.stopOf_closeEach hid, if_pos hinner]
    exact hline
  · rw [Reaches, Tree.stopOf_closeEach_of_not_mem hinner]
    simpa [hinner] using h

private theorem shut (h : draft.Reaches number id) (hid : id < draft.tree.size)
    (hline : number < line) (depth : Nat) : (draft.shut depth line).Reaches number id :=
  h.closeEach (List.take_append_drop _ _).symm hid hline

theorem closeAll (h : draft.Reaches number id) (hid : id < draft.tree.size)
    (hline : number < line) : number < (draft.closeAll line).tree.stopOf id := by
  apply (h.closeEach (List.append_nil _).symm hid hline).resolve_left
  simp

private theorem push (h : draft.Reaches number id) (hid : id < draft.tree.size) (parent : NodeId)
    (node : Node) {opened : List NodeId} (hopened : ∀ id ∈ draft.opened, id ∈ opened) :
    Reaches ⟨draft.tree.push parent node, opened⟩ number id := by
  rw [Reaches, Tree.stopOf_push, if_neg (Nat.ne_of_lt hid)]
  exact h.imp_left (hopened id)

private theorem extend (h : draft.Reaches number id) (other : NodeId) (text : String) :
    (draft.extend other line text).Reaches number id := by
  by_cases hother : other = id
  · left
    simp [Draft.extend, hother]
  · refine h.imp (List.mem_cons_of_mem other) fun hstop => ?_
    rwa [Draft.extend, Tree.stopOf, Tree.get?_modify, if_neg hother, ← Tree.stopOf]

private theorem addScope (h : draft.Reaches number id) (hid : id < draft.tree.size) {column : Nat}
    (hline : number < line) (key : String) : (draft.addScope (.single line column) key).Reaches number id := by
  right
  have hsize : id < (draft.closeAll line).tree.size := by
    rwa [tree_closeAll, Tree.size_closeEach]
  show number < ((draft.closeAll line).tree.push _ _).stopOf id
  rw [Tree.stopOf_push, if_neg (Nat.ne_of_lt hsize)]
  exact h.closeAll hid hline

theorem grow (h : draft.Reaches number id) (hid : id < draft.tree.size) (hline : number < line)
    (growth : Growth) : (draft.grow line growth).Reaches number id := by
  cases growth with
  | nothing => exact h
  | leaf => exact h.push hid _ _ fun _ hmem => hmem
  | choice => exact h.push hid _ _ fun _ => List.mem_cons_of_mem _
  | command column text =>
    simp only [Draft.grow]
    split
    next other _ => exact h.extend other text
    next => exact h.push hid _ _ fun _ => List.mem_cons_of_mem _
  | scope column key declared =>
    have hadded : (draft.addScope (.single line column) key).Reaches number id :=
      h.addScope hid hline key
    cases declared <;> exact hadded

end Reaches
end Draft

namespace Progress

variable {options : Options} {checker : Checker} {lines : List String} {reading : Reading}

/-- A block that is open after a line stays open or is closed behind that line. -/
theorem reaches_before (h : Reading.read options checker lines = .ok reading) {number i : Nat}
    {id : NodeId} (hopen : id ∈ (before options checker lines (number + 1)).draft.opened)
    (hlt : number < i) (hi : i ≤ lines.length) :
    (before options checker lines i).draft.Reaches number id := by
  induction i, hlt using Nat.le_induction with
  | base => exact .inl hopen
  | succ i hlt ih =>
    have hreaches := ih (Nat.le_of_succ_le hi)
    have hid : id < (before options checker lines i).draft.tree.size := by
      have hin := (matches_stage h (number + 1)).draft.branch.lt_length_of_mem hopen
      have hle := (Reading.continues_stage h hlt (Nat.le_of_succ_le hi)).length_le
      rw [(matches_stage h i).draft.drawn.size_eq]
      exact Nat.lt_of_lt_of_le hin hle
    rcases draft_before_succ h hi with hsame | ⟨depth, growth, _, _, hnext⟩
    · rwa [hsame]
    · rw [hnext]
      refine (hreaches.shut hid hlt depth).grow ?_ hlt growth
      rwa [Draft.shut, Tree.size_closeEach]

theorem lt_stopOf_of_opened (h : Reading.read options checker lines = .ok reading) {number : Nat}
    {id : NodeId} (hopen : id ∈ (before options checker lines (number + 1)).draft.opened)
    (hlt : number < lines.length) (hne : id ≠ Tree.root) :
    number < (read options checker lines).linked.stopOf id := by
  have hreaches := reaches_before h hopen hlt (Nat.le_refl _)
  have hmatches := matches_stage h lines.length
  have hin := (matches_stage h (number + 1)).draft.branch.lt_length_of_mem hopen
  have hle := (Reading.continues_stage h hlt (Nat.le_refl _)).length_le
  have hsize := hmatches.draft.drawn.size_eq
  have hcount := hmatches.lineCount.trans (Reading.lineCount_stage h (Nat.le_refl _))
  rw [← read_eq_before] at hreaches hsize hcount
  rw [stopOf_linked, Tree.stopOf_closeEach_of_not_mem (by simpa using hne), hcount]
  refine hreaches.closeAll ?_ hlt
  rw [hsize]
  exact Nat.lt_of_lt_of_le hin hle

end Progress
end Dialogue
