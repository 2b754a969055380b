import Mathlib.Data.List.Forall2
import Mathlib.Data.List.TakeWhile
import Dialogue.Proofs.Playback.Sessions

/-! What a step tells. A step that shows choices offers those that then wait, one offer for each,
and after one that shows nothing there is nothing left to play. -/
namespace Dialogue

def Event.isOffer : Event → Bool
  | offered _ => true
  | _ => false

def Tree.Offers (tree : Tree) (offer : Offer) (id : NodeId) : Prop :=
  ∃ span condition body, tree.get? id = some ⟨span, .block (.choice offer.text condition) body⟩ ∧
    offer.conditional = condition.isSome

namespace Playback

variable {host : Host} {tree : Tree} {playback next : Playback} {frame : Frame}
  {below frames : List Frame} {id : NodeId} {choices : List NodeId}

inductive AtEnd (tree : Tree) (playback : Playback) : Prop
  | left (hframes : playback.cursor.frames = [])
  | ranOut {frame : Frame} {below : List Frame} (hframes : playback.cursor.frames = frame :: below)
      (hchild : frame.child? tree = none) (hscope : tree.isScope frame.node = true)
  | reached {frame : Frame} {below : List Frame} {id : NodeId}
      (hframes : playback.cursor.frames = frame :: below) (hchild : frame.child? tree = some id)
      (hscope : tree.isScope id = true)

theorem move_of_atEnd (h : playback.AtEnd tree) :
    ∃ notice, playback.move host tree = .over (playback.note notice).finish := by
  cases h with
  | left hframes =>
    rw [move, hframes]
    exact ⟨_, rfl⟩
  | ranOut hframes hchild hscope =>
    simp only [move, hframes, hchild, if_pos hscope]
    exact ⟨_, rfl⟩
  | reached hframes hchild hscope =>
    obtain ⟨⟨span, content⟩, hnode, hcontent⟩ := (Option.any_eq_true _ _).mp hscope
    simp only [move, hframes, hchild, play, hnode]
    cases content with
    | leaf => contradiction
    | block block body =>
      cases block with
      | scope => exact ⟨_, rfl⟩
      | _ => contradiction

/-- What was told, in view of what waits now: an offer of it, or no offer at all. -/
structure Tells (tree : Tree) (pending : List NodeId) (told : List Event) : Prop where
  offered : ∀ offers, .offered offers ∈ told →
    pending ≠ [] ∧ List.Forall₂ tree.Offers offers pending
  waiting : pending ≠ [] → ∃ offers, .offered offers ∈ told

theorem Tells.quiet {told : List Event} (h : ∀ event ∈ told, event.isOffer = false) :
    Tells tree [] told :=
  ⟨fun _ hoffer => Bool.noConfusion (h _ hoffer), fun hne => absurd rfl hne⟩

theorem Tells.prepend {pending : List NodeId} {asked told : List Event}
    (h : Tells tree pending told) (hasked : ∀ event ∈ asked, event.isOffer = false) :
    Tells tree pending (asked ++ told) := by
  refine ⟨fun offers hoffer => ?_, fun hne => ?_⟩
  · rcases List.mem_append.mp hoffer with hbefore | htold
    · exact Bool.noConfusion (hasked _ hbefore)
    · exact h.offered offers htold
  · obtain ⟨offers, hoffer⟩ := h.waiting hne
    exact ⟨offers, List.mem_append_right _ hoffer⟩

def Tidy (tree : Tree) (playback : Playback) : Move → Prop
  | .on next => next.cursor.pending = [] ∧ next.cursor.finished = playback.cursor.finished ∧
      ∃ asked, next.events.toList = playback.events.toList ++ asked ∧
        ∀ event ∈ asked, event.isOffer = false
  | .paused next => next.cursor.finished = playback.cursor.finished ∧
      ∃ told, next.events.toList = playback.events.toList ++ told ∧
        Tells tree next.cursor.pending told
  | .over next => next.cursor.pending = [] ∧ next.cursor.finished = true ∧
      next.events = playback.events ∧ next.AtEnd tree

private theorem tidy_leaveScope (hidle : playback.cursor.pending = []) (frames : List Frame) :
    playback.Tidy tree (playback.leaveScope tree frames) := by
  induction frames with
  | nil => exact ⟨hidle, rfl, rfl, .left rfl⟩
  | cons frame below ih =>
    rw [leaveScope]
    split
    · exact ⟨hidle, rfl, [], (List.append_nil _).symm, List.forall_mem_nil _⟩
    · exact ih

private theorem sift_asks (host : Host) (tree : Tree) (playback : Playback)
    (choices : List NodeId) :
    ∃ asked, (playback.sift host tree choices).2.events.toList = playback.events.toList ++ asked ∧
      ∀ event ∈ asked, event.isOffer = false := by
  induction choices generalizing playback with
  | nil => exact ⟨[], (List.append_nil _).symm, nofun⟩
  | cons id rest ih =>
    simp only [sift]
    cases (tree.get? id).bind Node.condition? with
    | none => exact ih playback
    | some condition =>
      obtain ⟨asked, hevents, hasked⟩ := ih (playback.evaluate host condition true).2
      refine ⟨.evaluated condition true (host.answer playback.events condition true) :: asked, ?_,
        List.forall_mem_cons.mpr ⟨rfl, hasked⟩⟩
      rw [hevents, evaluate, emit, Array.toList_push, List.append_assoc]
      rfl

theorem forall₂_offers {kept : List NodeId} (h : ∀ id ∈ kept, tree.isChoice id = true) :
    List.Forall₂ tree.Offers (kept.filterMap fun id => (tree.get? id).bind Node.offer?) kept := by
  induction kept with
  | nil => exact .nil
  | cons id rest ih =>
    obtain ⟨hid, hrest⟩ := List.forall_mem_cons.mp h
    obtain ⟨⟨span, content⟩, hnode, hchoice⟩ := (Option.any_eq_true _ _).mp hid
    cases content with
    | leaf => contradiction
    | block block body =>
      cases block with
      | choice text condition =>
        have hoffer : (tree.get? id).bind Node.offer? = some ⟨text, condition.isSome⟩ := by
          rw [hnode]
          rfl
        rw [List.filterMap_cons, hoffer]
        exact .cons ⟨span, condition, body, hnode, rfl⟩ (ih hrest)
      | _ => contradiction

private theorem tidy_offer (hidle : playback.cursor.pending = [])
    (hchoices : ∀ id ∈ choices, tree.isChoice id = true) :
    playback.Tidy tree (playback.offer host tree choices) := by
  obtain ⟨asked, hevents, hasked⟩ := sift_asks host tree playback choices
  have hcursor := (sift_keeps host tree playback choices).2
  have hkept := sift_sublist host tree playback choices
  unfold offer
  split
  next sifted hsift =>
    rw [hsift] at hevents hcursor
    have hsame : sifted.cursor = playback.cursor := hcursor
    exact ⟨hsame ▸ hidle, congrArg Cursor.finished hsame, asked, hevents, hasked⟩
  next kept sifted hne hsift =>
    rw [hsift] at hevents hcursor hkept
    have hoffers := forall₂_offers fun id hid => hchoices id (hkept.subset hid)
    refine ⟨?_, asked ++ [.offered (kept.filterMap fun id => (tree.get? id).bind Node.offer?)], ?_,
      .prepend ?_ hasked⟩
    · show sifted.cursor.finished = playback.cursor.finished
      rw [show sifted.cursor = playback.cursor from hcursor]
    · rw [emit, Array.toList_push, ← List.append_assoc]
      exact congrArg (· ++ _) hevents
    · refine ⟨fun offers hoffer => ?_, fun _ => ⟨_, List.mem_singleton.mpr rfl⟩⟩
      obtain rfl := Event.offered.inj (List.mem_singleton.mp hoffer)
      exact ⟨fun hnil => hne hnil, hoffers⟩

private theorem tidy_play (hframes : playback.cursor.frames = frame :: below)
    (hchild : frame.child? tree = some id) (hidle : playback.cursor.pending = []) :
    playback.Tidy tree (playback.play host tree frame below id) := by
  have hsilent {next : Playback} (hevents : next.events = playback.events) :
      ∃ asked, next.events.toList = playback.events.toList ++ asked ∧
        ∀ event ∈ asked, event.isOffer = false :=
    ⟨[], by rw [hevents, List.append_nil], nofun⟩
  unfold play
  split
  next => exact ⟨hidle, rfl, hsilent rfl⟩
  next node hnode =>
    split
    next key body hcontent =>
      have hscope : tree.isScope id = true := by
        rw [Tree.isScope, hnode]
        exact congrArg Content.isScope hcontent
      exact ⟨hidle, rfl, rfl, .reached hframes hchild hscope⟩
    next text body hcontent =>
      have hasked (answer : Bool) :
          ∀ event ∈ [Event.evaluated text (!body.isEmpty) answer], event.isOffer = false :=
        List.forall_mem_singleton.mpr rfl
      dsimp only [evaluate]
      split
      · exact ⟨hidle, rfl, _, Array.toList_push, hasked _⟩
      · exact ⟨hidle, rfl, _, Array.toList_push, hasked _⟩
    next => exact tidy_offer hidle fun other hother => List.mem_takeWhile_imp hother
    next text _ =>
      refine ⟨rfl, _, Array.toList_push, ?_⟩
      have hquiet : Tells tree [] [.line text] :=
        .quiet (List.forall_mem_singleton.mpr rfl)
      rwa [← hidle] at hquiet
    next => exact ⟨hidle, rfl, hsilent rfl⟩
    next => exact ⟨hidle, rfl, hsilent rfl⟩
    next => exact ⟨hidle, rfl, hsilent rfl⟩
    next =>
      have hpassed : (playback.pass frame below node).cursor.pending = [] := hidle
      exact tidy_leaveScope hpassed _

private theorem tidy_move (hidle : playback.cursor.pending = []) :
    playback.Tidy tree (playback.move host tree) := by
  unfold move
  split
  next hframes => exact ⟨hidle, rfl, rfl, .left hframes⟩
  next frame below hframes =>
    split
    next id hchild => exact tidy_play hframes hchild hidle
    next hchild =>
      split
      next hscope => exact ⟨hidle, rfl, rfl, .ranOut hframes hchild hscope⟩
      next => exact ⟨hidle, rfl, [], (List.append_nil _).symm, nofun⟩

/-- However many moves it makes, a run that comes to rest leaves a playback that waits for a pick
among what it offered last, or one that is over. -/
theorem tidy_run {moves : Nat} {more : Bool} (hidle : playback.cursor.pending = [])
    (hrun : playback.run host tree moves = some (more, next)) :
    ∃ told, next.events.toList = playback.events.toList ++ told ∧
      Tells tree next.cursor.pending told ∧
      next.cursor.finished = (playback.cursor.finished || !more) ∧
      (more = false → next.cursor.pending = [] ∧ next.AtEnd tree) := by
  induction moves generalizing playback with
  | zero => contradiction
  | succ moves ih =>
    have htidy : Tidy tree playback (playback.move host tree) := tidy_move hidle
    rw [run] at hrun
    split at hrun
    next middle heq =>
      rw [heq] at htidy
      obtain ⟨hstill, hflag, asked, hasked, hquiet⟩ := htidy
      obtain ⟨told, htold, htells, hfinished, hend⟩ := ih hstill hrun
      refine ⟨asked ++ told, ?_, htells.prepend hquiet, ?_, hend⟩
      · rw [htold, hasked, List.append_assoc]
      · rw [hfinished, hflag]
    next heq =>
      rw [heq] at htidy
      obtain ⟨rfl, rfl⟩ := Prod.mk.inj (Option.some.inj hrun)
      obtain ⟨hflag, told, htold, htells⟩ := htidy
      exact ⟨told, htold, htells, by rw [hflag, Bool.not_true, Bool.or_false],
        fun hmore => absurd hmore.symm Bool.false_ne_true⟩
    next heq =>
      rw [heq] at htidy
      obtain ⟨rfl, rfl⟩ := Prod.mk.inj (Option.some.inj hrun)
      obtain ⟨hstill, hflag, hevents, hend⟩ := htidy
      refine ⟨[], by rw [hevents, List.append_nil], ?_, ?_, fun _ => ⟨hstill, hend⟩⟩
      · exact hstill ▸ .quiet (List.forall_mem_nil _)
      · rw [hflag, Bool.not_false, Bool.or_true]

theorem run_of_atEnd (h : playback.AtEnd tree) (moves : Nat) :
    ∃ notice, playback.run host tree (moves + 1) = some (false, (playback.note notice).finish) := by
  obtain ⟨notice, hmove⟩ : ∃ notice, playback.move host tree = _ := move_of_atEnd h
  exact ⟨notice, by rw [run, hmove]⟩

theorem eq_false_of_atEnd (h : playback.AtEnd tree) {moves : Nat} {more : Bool}
    (hrun : playback.run host tree moves = some (more, next)) : more = false := by
  cases moves with
  | zero => contradiction
  | succ moves =>
    obtain ⟨notice, hlast⟩ : ∃ notice, playback.run host tree (moves + 1) = _ :=
      run_of_atEnd h moves
    exact (Prod.mk.inj (Option.some.inj (hrun.symm.trans hlast))).1

end Playback
end Dialogue
