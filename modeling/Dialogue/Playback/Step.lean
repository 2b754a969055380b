import Dialogue.Log
import Dialogue.Playback.Cursor
import Dialogue.Playback.Host

/-! Playing a dialogue. A move plays one node or leaves one block; a step makes
moves until a line is shown, choices are offered or the playback is over. Jumps
may go round in circles, so a step is told how many moves it may make. -/
namespace Dialogue

structure Playback where
  cursor : Cursor
  events : Array Event := #[]
  log : Array Notice := #[]

inductive Move
  /-- Nothing to show yet. -/
  | on (playback : Playback)
  /-- Something was shown. -/
  | paused (playback : Playback)
  /-- Nothing is left to play. -/
  | over (playback : Playback)

def Node.offer? : Node → Option Offer
  | ⟨_, .block (.choice text condition) _⟩ => some ⟨text, condition.isSome⟩
  | _ => none

namespace Playback

def note (playback : Playback) (notice : Notice) : Playback :=
  { playback with log := playback.log.push notice }

def emit (playback : Playback) (event : Event) : Playback :=
  { playback with events := playback.events.push event }

def withFrames (playback : Playback) (frames : List Frame) : Playback :=
  { playback with cursor := { playback.cursor with frames } }

def enter (playback : Playback) (id : NodeId) : Playback :=
  { playback with cursor := playback.cursor.enter id }

def finish (playback : Playback) : Playback :=
  { playback with cursor := { playback.cursor with finished := true } }

def evaluate (host : Host) (playback : Playback) (text : String) (hasBody : Bool) :
    Bool × Playback :=
  let answer := host.answer playback.events text hasBody
  (answer, playback.emit (.evaluated text hasBody answer))

def sift (host : Host) (tree : Tree) (playback : Playback) : List NodeId → List NodeId × Playback
  | [] => ([], playback)
  | id :: rest =>
    match (tree.get? id).bind Node.condition? with
    | none =>
      let (kept, playback) := sift host tree playback rest
      (id :: kept, playback)
    | some condition =>
      let (holds, playback) := playback.evaluate host condition true
      let (kept, playback) := sift host tree playback rest
      (if holds then id :: kept else kept, playback)

/-- Offers those of the choices that hold. If none does, playback goes on. -/
def offer (host : Host) (tree : Tree) (playback : Playback) (choices : List NodeId) : Move :=
  match playback.sift host tree choices with
  | ([], playback) => .on playback
  | (kept, playback) =>
    .paused ({ playback with cursor := { playback.cursor with pending := kept } }.emit
      (.offered (kept.filterMap fun id => (tree.get? id).bind Node.offer?)))

/-- Leaves blocks up to and including the innermost section. -/
def leaveScope (tree : Tree) (playback : Playback) : List Frame → Move
  | [] => .over (playback.withFrames []).finish
  | frame :: below =>
    if tree.isScope frame.node then
      .on ((playback.withFrames below).note (.returned (tree.lineOf frame.node)))
    else leaveScope tree playback below

def pass (playback : Playback) (frame : Frame) (below : List Frame) (node : Node) : Playback :=
  (playback.withFrames (frame.skip 1 :: below)).note (.played node.content.name node.span.line)

/-- Plays the next child of a block. The child is passed before anything happens
to it, except a section, which ends the playback in front of it. -/
def play (host : Host) (tree : Tree) (playback : Playback) (frame : Frame) (below : List Frame)
    (id : NodeId) : Move :=
  match tree.get? id with
  | none => .on (playback.withFrames (frame.skip 1 :: below))
  | some node =>
    match node.content with
    | .block (.scope _) _ => .over (playback.note (.reachedScope node.span.line)).finish
    | .block (.command text) body =>
      let hasBody := !body.isEmpty
      let (answer, passed) := (playback.pass frame below node).evaluate host text hasBody
      .on (if answer && hasBody then passed.enter id else passed)
    | .block (.choice _ _) _ =>
      let choices := frame.choices tree
      ((playback.pass frame below node).withFrames
        (frame.skip choices.length :: below)).offer host tree choices
    | .leaf (.line text) => .paused ((playback.pass frame below node).emit (.line text))
    | .leaf (.comment _) => .on (playback.pass frame below node)
    | .leaf (.jump key (some target)) =>
      .on (((playback.pass frame below node).note (.jumped key)).enter target)
    | .leaf (.jump key none) =>
      .on ((playback.pass frame below node).note (.skippedJump key node.span.line))
    | .leaf .back => (playback.pass frame below node).leaveScope tree (frame.skip 1 :: below)

def move (host : Host) (tree : Tree) (playback : Playback) : Move :=
  match playback.cursor.frames with
  | [] => .over (playback.note .nothingOpen).finish
  | frame :: below =>
    match frame.child? tree with
    | some id => playback.play host tree frame below id
    | none =>
      if tree.isScope frame.node then
        .over (playback.note (.endOfScope (tree.lineOf frame.node))).finish
      else .on (playback.withFrames below)

/-- Makes moves until one shows something, which gives `true`, or ends the
playback, which gives `false`; none if the moves do not suffice. -/
def run (host : Host) (tree : Tree) : Nat → Playback → Option (Bool × Playback)
  | 0, _ => none
  | moves + 1, playback =>
    match playback.move host tree with
    | .on next => run host tree moves next
    | .paused next => some (true, next)
    | .over next => some (false, next)

def step (host : Host) (tree : Tree) (moves : Nat) (playback : Playback) :
    Option (Except Misuse Bool × Playback) :=
  if playback.cursor.isWaiting then some (.error .choicePending, playback)
  else (playback.run host tree moves).map fun (more, next) => (.ok more, next)

def choose (playback : Playback) (index : Nat) : Except Misuse Playback :=
  (playback.cursor.choose index).map fun cursor =>
    { playback with cursor }.note (.picked index)

@[simp] theorem events_note (playback : Playback) (notice : Notice) :
    (playback.note notice).events = playback.events := rfl

@[simp] theorem cursor_note (playback : Playback) (notice : Notice) :
    (playback.note notice).cursor = playback.cursor := rfl

@[simp] theorem cursor_emit (playback : Playback) (event : Event) :
    (playback.emit event).cursor = playback.cursor := rfl

@[simp] theorem events_withFrames (playback : Playback) (frames : List Frame) :
    (playback.withFrames frames).events = playback.events := rfl

@[simp] theorem pending_withFrames (playback : Playback) (frames : List Frame) :
    (playback.withFrames frames).cursor.pending = playback.cursor.pending := rfl

@[simp] theorem events_enter (playback : Playback) (id : NodeId) :
    (playback.enter id).events = playback.events := rfl

@[simp] theorem pending_enter (playback : Playback) (id : NodeId) :
    (playback.enter id).cursor.pending = playback.cursor.pending := rfl

@[simp] theorem events_pass (playback : Playback) (frame : Frame) (below : List Frame)
    (node : Node) : (playback.pass frame below node).events = playback.events := rfl

@[simp] theorem frames_pass (playback : Playback) (frame : Frame) (below : List Frame)
    (node : Node) :
    (playback.pass frame below node).cursor.frames = frame.skip 1 :: below := rfl

@[simp] theorem pending_pass (playback : Playback) (frame : Frame) (below : List Frame)
    (node : Node) :
    (playback.pass frame below node).cursor.pending = playback.cursor.pending := rfl

/-- A run that comes to rest does so with more moves as well, and in the same way. -/
theorem run_add {host : Host} {tree : Tree} {moves : Nat} {playback : Playback}
    {result : Bool × Playback} (h : playback.run host tree moves = some result) (extra : Nat) :
    playback.run host tree (moves + extra) = some result := by
  induction moves generalizing playback with
  | zero => simp [run] at h
  | succ moves ih =>
    rw [Nat.add_right_comm]
    simp only [run] at h ⊢
    split
    next heq => rw [heq] at h; exact ih h
    next heq => rw [heq] at h; exact h
    next heq => rw [heq] at h; exact h

theorem step_add {host : Host} {tree : Tree} {moves : Nat} {playback : Playback}
    {result : Except Misuse Bool × Playback} (h : playback.step host tree moves = some result)
    (extra : Nat) : playback.step host tree (moves + extra) = some result := by
  unfold step at h ⊢
  split
  next hwait => rwa [if_pos hwait] at h
  next hwait =>
    rw [if_neg hwait] at h
    obtain ⟨stop, hrun, hstop⟩ := Option.map_eq_some_iff.mp h
    rw [run_add hrun, Option.map_some, hstop]

end Playback
end Dialogue
