import Dialogue.Proofs.Playback.Simulation

/-! Sessions of steps and picks, turn by turn. A step that returns is a number of
turns, and any number of turns is made of steps that return and one that may still be
under way. -/
namespace Dialogue.Playback

variable {host : Host} {tree : Tree}

/-- The calls of a host that steps and, where choices wait, gives its next pick. A
pick that is refused is gone. -/
inductive Driven (host : Host) (tree : Tree) (first : Playback) (picks : List Nat) :
    Playback → List Nat → Prop
  | start : Driven host tree first picks first picks
  | step {playback next : Playback} {rest : List Nat} {moves : Nat} :
      Driven host tree first picks playback rest →
      playback.step host tree moves = some (.ok true, next) →
      Driven host tree first picks next rest
  | pick {playback next : Playback} {rest : List Nat} {index : Nat} :
      Driven host tree first picks playback (index :: rest) →
      playback.choose index = .ok next → Driven host tree first picks next rest
  | refused {playback : Playback} {rest : List Nat} {index : Nat} {misuse : Misuse} :
      Driven host tree first picks playback (index :: rest) →
      playback.cursor.isWaiting = true → playback.choose index = .error misuse →
      Driven host tree first picks playback rest

theorem isWaiting_eq_false_iff {playback : Playback} :
    playback.cursor.isWaiting = false ↔ playback.cursor.pending = [] := by
  cases h : playback.cursor.pending <;> simp [Cursor.isWaiting, h]

theorem sift_keeps (host : Host) (tree : Tree) (playback : Playback) (choices : List NodeId) :
    playback.events.toList <+: (playback.sift host tree choices).2.events.toList ∧
      (playback.sift host tree choices).2.cursor = playback.cursor := by
  induction choices generalizing playback with
  | nil => exact ⟨List.prefix_rfl, rfl⟩
  | cons id choices ih =>
    simp only [sift]
    cases (tree.get? id).bind Node.condition? with
    | none => exact ih playback
    | some guard =>
      obtain ⟨hevents, hcursor⟩ := ih (playback.evaluate host guard true).2
      refine ⟨.trans ?_ hevents, hcursor⟩
      simp [evaluate, emit]

theorem sift_sublist (host : Host) (tree : Tree) (playback : Playback) (choices : List NodeId) :
    (playback.sift host tree choices).1.Sublist choices := by
  induction choices generalizing playback with
  | nil => exact .slnil
  | cons id rest ih =>
    simp only [sift]
    cases (tree.get? id).bind Node.condition? with
    | none => exact (ih playback).cons_cons id
    | some condition =>
      have hrest := ih (playback.evaluate host condition true).2
      dsimp only
      split
      · exact hrest.cons_cons id
      · exact hrest.cons id

/-- What no move does: to forget an event, or to go on with an offer made. -/
def Keeps (playback : Playback) : Move → Prop
  | .on next => playback.events.toList <+: next.events.toList ∧
      next.cursor.pending = playback.cursor.pending
  | .paused next => playback.events.toList <+: next.events.toList
  | .over next => next.events = playback.events

private theorem keeps_leaveScope (playback : Playback) (frames : List Frame) :
    playback.Keeps (playback.leaveScope tree frames) := by
  induction frames with
  | nil => exact rfl
  | cons frame below ih =>
    rw [leaveScope]
    split
    · exact ⟨List.prefix_rfl, rfl⟩
    · exact ih

private theorem keeps_offer (playback : Playback) (choices : List NodeId) :
    playback.Keeps (playback.offer host tree choices) := by
  obtain ⟨hevents, hcursor⟩ := sift_keeps host tree playback choices
  unfold offer
  split
  next heq =>
    rw [heq] at hevents hcursor
    exact ⟨hevents, congrArg Cursor.pending hcursor⟩
  next heq =>
    rw [heq] at hevents
    refine .trans hevents ?_
    simp [emit]

theorem keeps_move (host : Host) (tree : Tree) (playback : Playback) :
    playback.Keeps (playback.move host tree) := by
  unfold move
  split
  next => exact rfl
  next frame below hframes =>
    split
    next id hchild =>
      unfold play
      split
      next => exact ⟨List.prefix_rfl, rfl⟩
      next node hnode =>
        split
        next => exact rfl
        next text body _ =>
          have hasked := List.prefix_append playback.events.toList
            [.evaluated text (!body.isEmpty) (host.answer playback.events text (!body.isEmpty))]
          rw [← Array.toList_push] at hasked
          dsimp only
          split
          · exact ⟨hasked, rfl⟩
          · exact ⟨hasked, rfl⟩
        next => exact keeps_offer _ _
        next text _ =>
          have hshown := List.prefix_append playback.events.toList [.line text]
          rwa [← Array.toList_push] at hshown
        next => exact ⟨List.prefix_rfl, rfl⟩
        next => exact ⟨List.prefix_rfl, rfl⟩
        next => exact ⟨List.prefix_rfl, rfl⟩
        next => exact keeps_leaveScope _ _
    next =>
      split
      · exact rfl
      · exact ⟨List.prefix_rfl, rfl⟩

private theorem events_prefix_turn? {start last : Turn} (h : turn? host tree start = some last) :
    start.1.events.toList <+: last.1.events.toList := by
  obtain ⟨playback, picks⟩ := start
  simp only [turn?] at h
  split at h
  next hwait =>
    cases picks with
    | nil => contradiction
    | cons index rest =>
      obtain rfl := Option.some.inj h
      simp only [perform, choose]
      cases playback.cursor.choose index <;> exact List.prefix_rfl
  next =>
    have hkeeps := keeps_move host tree playback
    split at h
    next heq =>
      obtain rfl := Option.some.inj h
      rw [heq] at hkeeps
      exact hkeeps.1
    next heq =>
      obtain rfl := Option.some.inj h
      rw [heq] at hkeeps
      exact hkeeps
    next => contradiction

theorem events_prefix_turns {count : Nat} {start last : Turn}
    (h : turns host tree count start = some last) :
    start.1.events.toList <+: last.1.events.toList := by
  induction count generalizing start with
  | zero =>
    obtain rfl := Option.some.inj h
    exact List.prefix_rfl
  | succ count ih =>
    obtain ⟨next, hnext, hrest⟩ := Option.bind_eq_some_iff.mp h
    exact (events_prefix_turn? hnext).trans (ih hrest)

theorem turns_of_turns_add {first second : Nat} {start middle last : Turn}
    (h₁ : turns host tree first start = some middle)
    (h₂ : turns host tree (first + second) start = some last) :
    turns host tree second middle = some last := by
  induction first generalizing start with
  | zero =>
    obtain rfl := Option.some.inj h₁
    rwa [Nat.zero_add] at h₂
  | succ first ih =>
    obtain ⟨next, hnext, hrest⟩ := Option.bind_eq_some_iff.mp h₁
    rw [Nat.add_right_comm, turns, hnext, Option.bind_some] at h₂
    exact ih hrest h₂

theorem turns_of_turn?_none {count more : Nat} {start last other : Turn}
    (h : turns host tree count start = some last) (hlast : turn? host tree last = none)
    (hother : turns host tree more start = some other) :
    ∃ left, count = more + left ∧ turns host tree left other = some last := by
  induction more generalizing start count with
  | zero =>
    obtain rfl := Option.some.inj hother
    exact ⟨count, (Nat.zero_add count).symm, h⟩
  | succ more ih =>
    obtain ⟨next, hnext, hrest⟩ := Option.bind_eq_some_iff.mp hother
    cases count with
    | zero =>
      obtain rfl := Option.some.inj h
      rw [hlast] at hnext
      contradiction
    | succ count =>
      obtain ⟨same, hsame, hcount⟩ := Option.bind_eq_some_iff.mp h
      obtain rfl := Option.some.inj (hnext.symm.trans hsame)
      obtain ⟨left, rfl, hleft⟩ := ih hcount hrest
      exact ⟨left, Nat.add_right_comm more left 1, hleft⟩

theorem eq_of_turn?_none {count more : Nat} {start last other : Turn}
    (h : turns host tree count start = some last) (hlast : turn? host tree last = none)
    (hmore : turns host tree more start = some other) (hother : turn? host tree other = none) :
    last = other := by
  obtain ⟨left, rfl, hleft⟩ := turns_of_turn?_none h hlast hmore
  cases left with
  | zero => exact (Option.some.inj hleft).symm
  | succ left => simp [turns, hother] at hleft

inductive Ahead (host : Host) (tree : Tree) (playback : Playback) : Nat → Playback → Prop
  | start : Ahead host tree playback 0 playback
  | on {moves : Nat} {middle next : Playback} : playback.cursor.isWaiting = false →
      Ahead host tree playback moves middle → middle.move host tree = .on next →
      Ahead host tree playback (moves + 1) next

namespace Ahead

variable {playback next : Playback} {moves : Nat}

theorem isWaiting_eq (h : Ahead host tree playback moves next) :
    next.cursor.isWaiting = playback.cursor.isWaiting := by
  induction h with
  | start => rfl
  | @on _ middle _ _ _ hmove ih =>
    have hkeeps := keeps_move host tree middle
    rw [hmove] at hkeeps
    rw [← ih, Cursor.isWaiting, hkeeps.2, Cursor.isWaiting]

theorem eq_of_isWaiting (h : Ahead host tree playback moves next)
    (hwait : next.cursor.isWaiting = true) : playback = next := by
  have hsame := h.isWaiting_eq
  cases h with
  | start => rfl
  | on hidle _ _ =>
    rw [hwait, hidle] at hsame
    contradiction

/-- A step that has been left off goes on where it was. -/
theorem run_eq (h : Ahead host tree playback moves next) (more : Nat) :
    playback.run host tree (moves + more) = next.run host tree more := by
  induction h generalizing more with
  | start => rw [Nat.zero_add]
  | on _ _ hmove ih => rw [Nat.add_assoc, Nat.add_comm 1, ih, run, hmove]

private theorem advance_eq (h : Ahead host tree playback moves next) (more : Nat) :
    playback.advance host tree (moves + more) = next.advance host tree more := by
  induction h generalizing more with
  | start => rw [Nat.zero_add]
  | on _ _ hmove ih => rw [Nat.add_assoc, Nat.add_comm 1, ih, advance, hmove]

theorem perform_eq (h : Ahead host tree playback moves next) :
    playback.perform host tree (.step moves) = next := by
  have hadvance := h.advance_eq 0
  cases h with
  | start => simp [perform, advance]
  | on hidle _ _ =>
    simp only [perform, hidle]
    exact hadvance

theorem step_of_paused {last : Playback} (h : Ahead host tree playback moves next)
    (hidle : next.cursor.isWaiting = false) (hmove : next.move host tree = .paused last) :
    playback.step host tree (moves + 1) = some (.ok true, last) := by
  have hwait := h.isWaiting_eq.symm.trans hidle
  have hrun := h.run_eq 1
  simp only [run.eq_2 host tree next 0, hmove] at hrun
  simp [step, hwait, hrun]

theorem step_of_over {last : Playback} (h : Ahead host tree playback moves next)
    (hidle : next.cursor.isWaiting = false) (hmove : next.move host tree = .over last) :
    playback.step host tree (moves + 1) = some (.ok false, last) := by
  have hwait := h.isWaiting_eq.symm.trans hidle
  have hrun := h.run_eq 1
  simp only [run.eq_2 host tree next 0, hmove] at hrun
  simp [step, hwait, hrun]

end Ahead

private theorem turns_succ {count : Nat} {start last : Turn}
    (h : turns host tree (count + 1) start = some last) :
    ∃ middle, turns host tree count start = some middle ∧ turn? host tree middle = some last := by
  induction count generalizing start with
  | zero =>
    obtain ⟨next, hnext, hrest⟩ := Option.bind_eq_some_iff.mp h
    obtain rfl := Option.some.inj hrest
    exact ⟨start, rfl, hnext⟩
  | succ count ih =>
    obtain ⟨next, hnext, hrest⟩ := Option.bind_eq_some_iff.mp h
    obtain ⟨middle, hmiddle, hlast⟩ := ih hrest
    exact ⟨middle, by rw [turns, hnext]; exact hmiddle, hlast⟩

/-- Turns are calls that have returned, and the moves of a step that may not have. -/
theorem driven_of_turns {first : Playback} {picks : List Nat} {count : Nat} {last : Turn}
    (h : turns host tree count (first, picks) = some last) :
    ∃ playback moves, Driven host tree first picks playback last.2 ∧
      Ahead host tree playback moves last.1 := by
  induction count generalizing last with
  | zero =>
    obtain rfl := Option.some.inj h
    exact ⟨first, 0, .start, .start⟩
  | succ count ih =>
    obtain ⟨⟨middle, left⟩, hmiddle, hturn⟩ := turns_succ h
    obtain ⟨playback, moves, hdriven, hahead⟩ := ih hmiddle
    simp only [turn?] at hturn
    split at hturn
    next hwait =>
      obtain rfl := hahead.eq_of_isWaiting hwait
      cases left with
      | nil => contradiction
      | cons index rest =>
        obtain rfl := Option.some.inj hturn
        cases hchoose : playback.choose index with
        | ok next =>
          rw [perform_choose_of_choose hchoose]
          exact ⟨next, 0, hdriven.pick hchoose, .start⟩
        | error misuse =>
          have hstill : playback.perform host tree (.choose index) = playback := by
            simp [perform, hchoose]
          rw [hstill]
          exact ⟨playback, 0, hdriven.refused hwait hchoose, .start⟩
    next hwait =>
      have hidle := Bool.eq_false_iff.mpr hwait
      split at hturn
      next next hmove =>
        obtain rfl := Option.some.inj hturn
        exact ⟨playback, moves + 1, hdriven, .on (hahead.isWaiting_eq.symm.trans hidle) hahead hmove⟩
      next next hmove =>
        obtain rfl := Option.some.inj hturn
        exact ⟨next, 0, hdriven.step (hahead.step_of_paused hidle hmove), .start⟩
      next => contradiction

/-- A step that returns is a number of turns, the last of which shows something or
comes right before the end. -/
theorem turns_of_run {moves : Nat} {playback last : Playback} {more : Bool} (picks : List Nat)
    (hidle : playback.cursor.isWaiting = false)
    (h : playback.run host tree moves = some (more, last)) :
    if more then ∃ count, turns host tree count (playback, picks) = some (last, picks)
    else ∃ count before, turns host tree count (playback, picks) = some (before, picks) ∧
      before.cursor.isWaiting = false ∧ before.move host tree = .over last := by
  induction moves generalizing playback with
  | zero => simp [run] at h
  | succ moves ih =>
    rw [run] at h
    split at h
    next next hmove =>
      have hkeeps := keeps_move host tree playback
      rw [hmove] at hkeeps
      have hstill : next.cursor.isWaiting = false := by
        rw [Cursor.isWaiting, hkeeps.2]
        exact hidle
      have hturn : turn? host tree (playback, picks) = some (next, picks) := by
        simp [turn?, hidle, hmove]
      have hrest := ih hstill h
      split at hrest
      next hmore =>
        obtain ⟨count, hcount⟩ := hrest
        rw [if_pos hmore]
        exact ⟨count + 1, by rw [turns, hturn]; exact hcount⟩
      next hmore =>
        obtain ⟨count, before, hcount, hbefore⟩ := hrest
        rw [if_neg hmore]
        exact ⟨count + 1, before, by rw [turns, hturn]; exact hcount, hbefore⟩
    next next hmove =>
      obtain ⟨rfl, rfl⟩ := Prod.mk.inj (Option.some.inj h)
      rw [if_pos rfl]
      exact ⟨1, turns_one (by simp [turn?, hidle, hmove])⟩
    next next hmove =>
      obtain ⟨rfl, rfl⟩ := Prod.mk.inj (Option.some.inj h)
      rw [if_neg Bool.false_ne_true]
      exact ⟨0, playback, rfl, hidle, hmove⟩

theorem run_of_step {moves : Nat} {playback last : Playback} {more : Bool}
    (h : playback.step host tree moves = some (.ok more, last)) :
    playback.cursor.isWaiting = false ∧ playback.run host tree moves = some (more, last) := by
  unfold step at h
  split at h
  next => simp at h
  next hwait =>
    obtain ⟨⟨stop, next⟩, hrun, heq⟩ := Option.map_eq_some_iff.mp h
    obtain ⟨hmore, rfl⟩ := Prod.mk.inj heq
    obtain rfl := Except.ok.inj hmore
    exact ⟨Bool.eq_false_iff.mpr hwait, hrun⟩

theorem step_of_run {moves : Nat} {playback last : Playback} {more : Bool}
    (hidle : playback.cursor.isWaiting = false)
    (hrun : playback.run host tree moves = some (more, last)) :
    playback.step host tree moves = some (.ok more, last) := by
  rw [step, if_neg (Bool.eq_false_iff.mp hidle), hrun]
  rfl

theorem step_of_isWaiting {playback : Playback} (h : playback.cursor.isWaiting = true)
    (moves : Nat) : playback.step host tree moves = some (.error .choicePending, playback) := by
  rw [step, if_pos h]

theorem isWaiting_of_step {moves : Nat} {playback last : Playback} {misuse : Misuse}
    (h : playback.step host tree moves = some (.error misuse, last)) :
    playback.cursor.isWaiting = true ∧ misuse = .choicePending := by
  unfold step at h
  split at h
  next hwait =>
    obtain ⟨hmisuse, _⟩ := Prod.mk.inj (Option.some.inj h)
    exact ⟨hwait, (Except.error.inj hmisuse).symm⟩
  next =>
    obtain ⟨_, _, heq⟩ := Option.map_eq_some_iff.mp h
    cases (Prod.mk.inj heq).1

private theorem isWaiting_of_choose {playback next : Playback} {index : Nat}
    (h : playback.choose index = .ok next) : playback.cursor.isWaiting = true := by
  cases hpending : playback.cursor.pending with
  | nil => simp [choose, Cursor.choose, hpending, Except.map] at h
  | cons => simp [Cursor.isWaiting, hpending]

theorem turns_of_driven {first last : Playback} {picks rest : List Nat}
    (h : Driven host tree first picks last rest) :
    ∃ count, turns host tree count (first, picks) = some (last, rest) := by
  induction h with
  | start => exact ⟨0, rfl⟩
  | step _ hstep ih =>
    obtain ⟨count, hcount⟩ := ih
    obtain ⟨hidle, hrun⟩ := run_of_step hstep
    obtain ⟨more, hmore⟩ := turns_of_run _ hidle hrun
    exact ⟨count + more, turns_add hcount hmore⟩
  | @pick playback next rest index _ hchoose ih =>
    obtain ⟨count, hcount⟩ := ih
    have hwait := isWaiting_of_choose hchoose
    refine ⟨count + 1, turns_add hcount (turns_one ?_)⟩
    simp [turn?, hwait, perform, hchoose]
  | @refused playback rest index misuse _ hwait hchoose ih =>
    obtain ⟨count, hcount⟩ := ih
    refine ⟨count + 1, turns_add hcount (turns_one ?_)⟩
    simp [turn?, hwait, perform, hchoose]

end Dialogue.Playback
