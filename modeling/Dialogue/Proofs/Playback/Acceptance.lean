import Dialogue.Proofs.Parse.Verdicts
import Dialogue.Proofs.Playback.Adequacy
import Dialogue.Proofs.Playback.InPlay

/-! Playback and the verdicts of the checker. Whatever a host does, it is only asked what the
checker accepted, and nothing within a rejected command is ever in play. -/
namespace Dialogue

namespace Playback

variable {host : Host} {tree : Tree} {playback next start : Playback} {cursor : Cursor}
  {siblings : List NodeId}

structure Rooted (tree : Tree) (playback : Playback) : Prop where
  frames : ∀ frame ∈ playback.cursor.frames, tree.Within Tree.root frame.node
  pending : ∀ id ∈ playback.cursor.pending, tree.Within Tree.root id

theorem Rooted.within (h : Rooted tree playback) {id : NodeId} (hid : InPlay tree playback id) :
    tree.Within Tree.root id := by
  cases hid with
  | frame hframe => exact h.frames _ hframe
  | pending hid => exact h.pending id hid
  | @next frame below id hframes hchild =>
    have hframe := h.frames frame (hframes ▸ List.mem_cons_self)
    exact .child hframe (List.mem_of_getElem? hchild)
  | @choice frame below id hframes hid =>
    have hframe := h.frames frame (hframes ▸ List.mem_cons_self)
    exact .child hframe (List.mem_of_mem_drop ((List.takeWhile_subset _) hid))

theorem exists_pending_of_choose {index : Nat} (h : playback.choose index = .ok next) :
    ∃ id ∈ playback.cursor.pending, next.cursor.frames = .start id :: playback.cursor.frames ∧
      next.cursor.pending = [] ∧ next.events = playback.events := by
  cases hpick : playback.cursor.pending[index]? with
  | none => simp [Playback.choose, Cursor.choose, hpick, Except.map] at h
  | some id =>
    rw [choose_of_getElem? hpick] at h
    obtain rfl := Except.ok.inj h
    exact ⟨id, List.mem_of_getElem? hpick, rfl, rfl, rfl⟩

private theorem Rooted.choose (h : Rooted tree playback) {index : Nat}
    (hchoose : playback.choose index = .ok next) : Rooted tree next := by
  obtain ⟨id, hid, hframes, hpending, _⟩ := exists_pending_of_choose hchoose
  constructor
  · intro frame hframe
    rw [hframes] at hframe
    rcases List.mem_cons.mp hframe with rfl | hold
    · exact h.pending id hid
    · exact h.frames frame hold
  · intro other hother
    rw [hpending] at hother
    contradiction

end Playback
end Dialogue
