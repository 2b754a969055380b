import Dialogue.Playback.Session

/-! Calls on a playback. A step that does not come to rest is cut short after a
number of moves, so that a list of calls leads to every state that a playback goes
through, also to those inside a step that never returns. -/
namespace Dialogue

inductive Call
  /-- To step. The step is left off after that many moves if it is still under way. -/
  | step (moves : Nat)
  | choose (index : Nat)
  deriving Repr, DecidableEq

def Move.playback : Move → Playback
  | .on playback => playback
  | .paused playback => playback
  | .over playback => playback

namespace Playback

variable {host : Host} {tree : Tree}

def advance (host : Host) (tree : Tree) : Nat → Playback → Playback
  | 0, playback => playback
  | moves + 1, playback =>
    match playback.move host tree with
    | .on next => advance host tree moves next
    | .paused next => next
    | .over next => next

/-- What a call makes of a playback. A call that is refused changes nothing. -/
def perform (host : Host) (tree : Tree) (playback : Playback) : Call → Playback
  | .step moves =>
    if playback.cursor.isWaiting then playback else playback.advance host tree moves
  | .choose index =>
    match playback.choose index with
    | .ok next => next
    | .error _ => playback

def reply (host : Host) (tree : Tree) (playback : Playback) : Call → Reply
  | .step moves =>
    match playback.step host tree moves with
    | none => .unsettled
    | some (.error misuse, _) => .refused misuse
    | some (.ok more, _) => .stepped more
  | .choose index =>
    match playback.choose index with
    | .error misuse => .refused misuse
    | .ok _ => .done

def replies (host : Host) (tree : Tree) : Playback → List Call → List Reply
  | _, [] => []
  | playback, call :: calls =>
    playback.reply host tree call :: replies host tree (playback.perform host tree call) calls

theorem advance_of_run {moves : Nat} {playback next : Playback} {more : Bool}
    (h : playback.run host tree moves = some (more, next)) :
    playback.advance host tree moves = next := by
  induction moves generalizing playback with
  | zero => simp [run] at h
  | succ moves ih =>
    simp only [run] at h
    simp only [advance]
    split
    next heq => rw [heq] at h; exact ih h
    next heq => rw [heq] at h; simp_all
    next heq => rw [heq] at h; simp_all

theorem perform_step_of_step {moves : Nat} {playback next : Playback} {more : Bool}
    (h : playback.step host tree moves = some (.ok more, next)) :
    playback.perform host tree (.step moves) = next := by
  unfold step at h
  simp only [perform]
  split at h
  next => simp at h
  next hwait =>
    obtain ⟨⟨stop, last⟩, hrun, hlast⟩ := Option.map_eq_some_iff.mp h
    obtain ⟨hmore, rfl⟩ := Prod.mk.inj hlast
    rw [if_neg hwait]
    exact advance_of_run hrun

theorem perform_choose_of_choose {index : Nat} {playback next : Playback}
    (h : playback.choose index = .ok next) :
    playback.perform host tree (.choose index) = next := by
  simp [perform, h]

end Playback

def Cursor.start (tree : Tree) : Option String → Except Misuse Cursor
  | none => .ok .new
  | some key => atScope tree key

/-- The replies to some calls and all that the host was told in their course. -/
def Playback.session (host : Host) (tree : Tree) (start : Option String) (calls : List Call) :
    Except Misuse (List Reply × List Event) :=
  (Cursor.start tree start).map fun cursor =>
    let playback : Playback := { cursor }
    (playback.replies host tree calls, (calls.foldl (perform host tree) playback).events.toList)

end Dialogue
