import Dialogue.Proofs.Parse.Arena
import Dialogue.Proofs.Playback.Stack
import Dialogue.Proofs.Tree.Circuit

/-! The cost of playback. Where no section leads back to itself, every move takes something off
what is left to play, jumps included. Steps return then, and sessions end. -/
namespace Dialogue

def Frame.cost (tree : Tree) (frame : Frame) : Nat :=
  1 + total tree.cost ((tree.children frame.node).drop frame.next)

/-- How many moves are left at most. Of the choices that wait one will be entered, and all
are counted. -/
def Cursor.cost (tree : Tree) (cursor : Cursor) : Nat :=
  total (Frame.cost tree) cursor.frames +
    total (fun id => (Frame.start id).cost tree) cursor.pending

theorem Cursor.cost_of_idle {tree : Tree} {cursor : Cursor} (h : cursor.pending = []) :
    cursor.cost tree = total (Frame.cost tree) cursor.frames := by
  rw [cost, h, total_nil, Nat.add_zero]

namespace Frame

variable {tree : Tree} {frame : Frame} {id target : NodeId} {below : List Frame}

theorem choices_ne_nil (hchild : frame.child? tree = some id) (hchoice : tree.isChoice id = true) :
    frame.choices tree ≠ [] := by
  obtain ⟨hlt, hid⟩ := List.getElem?_eq_some_iff.mp hchild
  rw [choices, List.drop_eq_getElem_cons hlt, hid, List.takeWhile_cons_of_pos hchoice]
  exact List.cons_ne_nil _ _

private theorem cost_start (tree : Tree) (id : NodeId) :
    (start id).cost tree = 1 + total tree.cost (tree.children id) := rfl

theorem cost_skip (tree : Tree) (frame : Frame) (count : Nat) : (frame.skip count).cost tree =
    1 + total tree.cost ((tree.children frame.node).drop (frame.next + count)) := rfl

theorem cost_of_child? (h : frame.child? tree = some id) :
    frame.cost tree = (frame.skip 1).cost tree + tree.cost id := by
  obtain ⟨hlt, hid⟩ := List.getElem?_eq_some_iff.mp h
  rw [cost, cost_skip, List.drop_eq_getElem_cons hlt, hid, total_cons]
  omega

theorem cost_choices (tree : Tree) (frame : Frame) :
    frame.cost tree = (frame.skip (frame.choices tree).length).cost tree +
      total tree.cost (frame.choices tree) := by
  have hsplit : frame.choices tree ++
      (tree.children frame.node).drop (frame.next + (frame.choices tree).length) =
        (tree.children frame.node).drop frame.next := by
    rw [← List.drop_drop]
    exact List.prefix_iff_eq_append.mp (List.takeWhile_prefix _)
  rw [cost, cost_skip, ← hsplit, total_append]
  omega

theorem cost_start_lt (h : tree.Laid) (hacyclic : tree.Acyclic) (id : NodeId) :
    (start id).cost tree < tree.cost id := by
  rw [cost_start, Tree.cost_eq h hacyclic, Tree.brings, total_append]
  omega

/-- To enter a section costs less than it saves to have passed the jump that leads there. -/
theorem cost_start_target_lt (h : tree.Laid) (hacyclic : tree.Acyclic)
    (htarget : tree.target? id = some target) : (start target).cost tree < tree.cost id := by
  have hlt := cost_start_lt h hacyclic target
  rw [Tree.cost_eq h hacyclic id, Tree.brings, total_append, htarget, Option.toList_some,
    total_cons]
  omega

private theorem total_cost_start (h : tree.Laid) (hacyclic : tree.Acyclic) (ids : List NodeId) :
    total (fun id => (start id).cost tree) ids + ids.length ≤ total tree.cost ids := by
  induction ids with
  | nil => exact Nat.le_refl _
  | cons id rest ih =>
    have hlt := cost_start_lt h hacyclic id
    rw [total_cons, total_cons, List.length_cons]
    omega

theorem total_enter_lt (hchild : frame.child? tree = some id)
    (hlt : (start target).cost tree < tree.cost id) :
    total (cost tree) (start target :: frame.skip 1 :: below) <
      total (cost tree) (frame :: below) := by
  have hsaved := cost_of_child? hchild
  rw [total_cons, total_cons, total_cons]
  omega

private theorem total_skip_lt (h : tree.Laid) (hacyclic : tree.Acyclic)
    (hchild : frame.child? tree = some id) :
    total (cost tree) (frame.skip 1 :: below) < total (cost tree) (frame :: below) :=
  Nat.lt_of_le_of_lt (Nat.le_add_left _ _)
    (total_enter_lt hchild (cost_start_lt h hacyclic id))

end Frame

/-- A move that takes something off what is left to play, or ends the playback. -/
def Move.Saves (tree : Tree) (bound : Nat) : Move → Prop
  | .on next => next.cursor.cost tree < bound
  | .paused next => next.cursor.cost tree < bound
  | .over _ => True

namespace Playback

variable {host : Host} {tree : Tree}

/-- A session in which whoever plays picks as they like: so many steps have shown something. -/
inductive Picking (host : Host) (tree : Tree) (pick : Playback → Nat) (first : Playback) :
    Nat → Playback → Prop
  | start : Picking host tree pick first 0 first
  | step {count moves : Nat} {playback next : Playback} :
      Picking host tree pick first count playback →
      playback.step host tree moves = some (.ok true, next) →
      Picking host tree pick first (count + 1) next
  | choose {count : Nat} {playback next : Playback} :
      Picking host tree pick first count playback →
      playback.choose (pick playback) = .ok next → Picking host tree pick first count next

variable {playback next : Playback} {frame : Frame} {below frames : List Frame} {id : NodeId}

theorem cost_lt_of_idle {bound : Nat} (hidle : next.cursor.pending = [])
    (hlt : total (Frame.cost tree) next.cursor.frames < bound) : next.cursor.cost tree < bound :=
  (Cursor.cost_of_idle hidle).trans_lt hlt

private theorem saves_leaveScope {bound : Nat} (hidle : playback.cursor.pending = [])
    (hlt : total (Frame.cost tree) frames < bound) :
    (playback.leaveScope tree frames).Saves tree bound := by
  induction frames with
  | nil => trivial
  | cons frame below ih =>
    have hbelow : total (Frame.cost tree) below < bound :=
      Nat.lt_of_le_of_lt (Nat.le_add_left _ _) hlt
    rw [leaveScope]
    split
    · exact cost_lt_of_idle hidle hbelow
    · exact ih hbelow

theorem saves_offer (h : tree.Laid) (hacyclic : tree.Acyclic) {choices : List NodeId}
    (hidle : playback.cursor.pending = []) (hne : choices ≠ []) {bound : Nat}
    (hbound : bound = total (Frame.cost tree) playback.cursor.frames + total tree.cost choices) :
    (playback.offer host tree choices).Saves tree bound := by
  have hsublist := sift_sublist host tree playback choices
  have hcursor := (sift_keeps host tree playback choices).2
  unfold offer
  split
  next sifted hsift =>
    rw [hsift] at hcursor
    have hcost := Frame.total_cost_start h hacyclic choices
    have hpos := List.length_pos_iff.mpr hne
    show sifted.cursor.cost tree < bound
    rw [hcursor, Cursor.cost_of_idle hidle]
    omega
  next kept sifted hkept hsift =>
    rw [hsift] at hsublist hcursor
    have hcost := Frame.total_cost_start h hacyclic kept
    have hpos : 0 < kept.length := List.length_pos_iff.mpr fun hnil => hkept hnil
    have hle : total tree.cost kept ≤ total tree.cost choices := total_le_of_sublist _ hsublist
    show total (Frame.cost tree) sifted.cursor.frames + total _ kept < bound
    rw [hcursor]
    omega

private theorem saves_play (h : tree.Laid) (hacyclic : tree.Acyclic)
    (hchild : frame.child? tree = some id) (hidle : playback.cursor.pending = []) :
    (playback.play host tree frame below id).Saves tree
      (total (Frame.cost tree) (frame :: below)) := by
  have hpassed : total (Frame.cost tree) (frame.skip 1 :: below) <
      total (Frame.cost tree) (frame :: below) := Frame.total_skip_lt h hacyclic hchild
  unfold play
  split
  next => exact cost_lt_of_idle hidle hpassed
  next node hnode =>
    obtain ⟨span, content⟩ := node
    split
    next => trivial
    next text body hcontent =>
      dsimp only [evaluate]
      split
      · exact cost_lt_of_idle hidle
          (Frame.total_enter_lt hchild (Frame.cost_start_lt h hacyclic id))
      · exact cost_lt_of_idle hidle hpassed
    next label condition body hcontent =>
      obtain rfl : content = _ := hcontent
      have hchoice : tree.isChoice id = true := by
        rw [Tree.isChoice, hnode]
        rfl
      have hchoices := frame.cost_choices tree
      refine saves_offer h hacyclic (by exact hidle) (Frame.choices_ne_nil hchild hchoice) ?_
      show _ = total (Frame.cost tree) (frame.skip (frame.choices tree).length :: below) + _
      rw [total_cons, total_cons]
      omega
    next => exact cost_lt_of_idle hidle hpassed
    next => exact cost_lt_of_idle hidle hpassed
    next key target hcontent =>
      obtain rfl : content = _ := hcontent
      have htarget : tree.target? id = some target := by
        rw [Tree.target?, hnode]
        rfl
      exact cost_lt_of_idle hidle
        (Frame.total_enter_lt hchild (Frame.cost_start_target_lt h hacyclic htarget))
    next => exact cost_lt_of_idle hidle hpassed
    next => exact saves_leaveScope hidle hpassed

private theorem saves_move (h : tree.Laid) (hacyclic : tree.Acyclic)
    (hidle : playback.cursor.pending = []) :
    (playback.move host tree).Saves tree (playback.cursor.cost tree) := by
  rw [Cursor.cost_of_idle hidle]
  unfold move
  split
  next => trivial
  next frame below hframes =>
    rw [hframes]
    split
    next id hchild => exact saves_play h hacyclic hchild hidle
    next =>
      split
      next => trivial
      next =>
        refine cost_lt_of_idle hidle ?_
        show total (Frame.cost tree) below < total (Frame.cost tree) (frame :: below)
        rw [total_cons, Frame.cost]
        omega

/-- A run needs no more moves than it costs, and what it shows takes something off. -/
theorem exists_run (host : Host) (h : tree.Laid) (hacyclic : tree.Acyclic)
    (hidle : playback.cursor.pending = []) {moves : Nat} (hmoves : playback.cursor.cost tree < moves) :
    ∃ more next, playback.run host tree moves = some (more, next) ∧
      (more = true → next.cursor.cost tree < playback.cursor.cost tree) := by
  induction moves generalizing playback with
  | zero => exact absurd hmoves (Nat.not_lt_zero _)
  | succ moves ih =>
    have hsaves : (playback.move host tree).Saves tree (playback.cursor.cost tree) :=
      saves_move h hacyclic hidle
    have hkeeps := keeps_move host tree playback
    rw [run]
    cases hmove : playback.move host tree with
    | on next =>
      rw [hmove] at hsaves hkeeps
      have hlt : next.cursor.cost tree < playback.cursor.cost tree := hsaves
      obtain ⟨more, last, hrun, hless⟩ :=
        ih (hkeeps.2.trans hidle) (Nat.lt_of_lt_of_le hlt (Nat.le_of_lt_succ hmoves))
      exact ⟨more, last, hrun, fun hmore => Nat.lt_trans (hless hmore) hlt⟩
    | paused next =>
      rw [hmove] at hsaves
      exact ⟨true, next, rfl, fun _ => hsaves⟩
    | _ => exact ⟨false, _, rfl, fun hmore => absurd hmore Bool.false_ne_true⟩

theorem exists_step (host : Host) (h : tree.Laid) (hacyclic : tree.Acyclic)
    (hidle : playback.cursor.isWaiting = false) {moves : Nat}
    (hmoves : playback.cursor.cost tree < moves) :
    ∃ more next, playback.step host tree moves = some (.ok more, next) ∧
      (more = true → next.cursor.cost tree < playback.cursor.cost tree) := by
  obtain ⟨more, next, hrun, hless⟩ :=
    exists_run host h hacyclic (isWaiting_eq_false_iff.mp hidle) hmoves
  exact ⟨more, next, step_of_run hidle hrun, hless⟩

theorem cost_lt_of_step (h : tree.Laid) (hacyclic : tree.Acyclic) {moves : Nat}
    (hstep : playback.step host tree moves = some (.ok true, next)) :
    next.cursor.cost tree < playback.cursor.cost tree := by
  obtain ⟨hidle, _⟩ := run_of_step hstep
  obtain ⟨more, last, hlast, hless⟩ := exists_step host h hacyclic hidle
    (Nat.lt_of_lt_of_le (Nat.lt_succ_self _) (Nat.le_add_left _ moves))
  obtain ⟨hmore, rfl⟩ := Prod.mk.inj (Option.some.inj ((step_add hstep _).symm.trans hlast))
  exact hless (Except.ok.inj hmore).symm

end Playback

theorem Cursor.cost_le_of_choose (tree : Tree) {cursor next : Cursor} {index : Nat}
    (h : cursor.choose index = .ok next) : next.cost tree ≤ cursor.cost tree := by
  unfold choose at h
  split at h
  next id hid =>
    obtain rfl := Except.ok.inj h
    have hle := total_le_of_sublist (fun id => (Frame.start id).cost tree)
      (List.singleton_sublist.mpr (List.mem_of_getElem? hid))
    rw [total_cons, total_nil] at hle
    show total (Frame.cost tree) (.start id :: cursor.frames) + 0 ≤ _
    rw [total_cons, cost]
    omega
  next => contradiction

namespace Playback

variable {host : Host} {tree : Tree} {pick : Playback → Nat} {first last : Playback} {count : Nat}

theorem cursor_of_choose {playback next : Playback} {index : Nat}
    (h : playback.choose index = .ok next) : playback.cursor.choose index = .ok next.cursor := by
  rw [choose] at h
  cases hcursor : playback.cursor.choose index with
  | error misuse =>
    rw [hcursor] at h
    contradiction
  | ok cursor =>
    rw [hcursor] at h
    obtain rfl := Except.ok.inj h
    rfl

private theorem Picking.count_le (h : tree.Laid) (hacyclic : tree.Acyclic)
    (hpicking : Picking host tree pick first count last) :
    count + last.cursor.cost tree ≤ first.cursor.cost tree := by
  induction hpicking with
  | start => exact Nat.le_of_eq (Nat.zero_add _)
  | step _ hstep ih =>
    have hlt := cost_lt_of_step h hacyclic hstep
    omega
  | @choose count playback next _ hchoose ih =>
    have hle := Cursor.cost_le_of_choose tree (cursor_of_choose hchoose)
    exact Nat.le_trans (Nat.add_le_add_left hle _) ih

/-- Whoever only makes picks that fit comes to a step after which nothing is left. -/
theorem Picking.exists_last (h : tree.Laid) (hacyclic : tree.Acyclic)
    (hpick : ∀ playback : Playback, playback.cursor.isWaiting = true →
      pick playback < playback.cursor.pending.length)
    (hpicking : Picking host tree pick first count last) :
    ∃ count last moves next, Picking host tree pick first count last ∧
      last.step host tree moves = some (.ok false, next) := by
  generalize hbound : last.cursor.cost tree = bound
  induction bound using Nat.strongRecOn generalizing count last with
  | _ bound ih =>
    obtain ⟨idle, hpicked, hidle, hle⟩ : ∃ idle, Picking host tree pick first count idle ∧
        idle.cursor.isWaiting = false ∧ idle.cursor.cost tree ≤ bound := by
      cases hwait : last.cursor.isWaiting with
      | false => exact ⟨last, hpicking, hwait, Nat.le_of_eq hbound⟩
      | true =>
        have hchoose := choose_of_getElem? (List.getElem?_eq_getElem (hpick last hwait))
        refine ⟨_, hpicking.choose hchoose, rfl, ?_⟩
        exact hbound ▸ Cursor.cost_le_of_choose tree (cursor_of_choose hchoose)
    obtain ⟨more, next, hstep, hless⟩ := exists_step host h hacyclic hidle (Nat.lt_succ_self _)
    cases more with
    | false => exact ⟨count, idle, _, next, hpicked, hstep⟩
    | true => exact ih _ (Nat.lt_of_lt_of_le (hless rfl) hle) (hpicked.step hstep) rfl

/-- A section that jumps to itself first of all is played for ever. -/
theorem run_of_circle {scope jump : NodeId} {span : Span} {key : String} {below : List Frame}
    {playback : Playback} (hchild : (Frame.start scope).child? tree = some jump)
    (hjump : tree.get? jump = some ⟨span, .leaf (.jump key (some scope))⟩)
    (hframes : playback.cursor.frames = .start scope :: below) (moves : Nat) :
    playback.run host tree moves = none := by
  induction moves generalizing playback below with
  | zero => rfl
  | succ moves ih =>
    simp only [run, move, hframes, hchild, play, hjump]
    exact ih rfl

end Playback

/-- Playback that comes to an end: the cost counts down to it. -/
structure Tree.Terminates (tree : Tree) (cost : Cursor → Nat) : Prop where
  returns : ∀ (host : Host) (playback : Playback),
    ∃ result next, playback.step host tree (cost playback.cursor + 1) = some (result, next)
  step_lt : ∀ (host : Host) (playback next : Playback) (moves : Nat),
    playback.step host tree moves = some (.ok true, next) → cost next.cursor < cost playback.cursor
  choose_le : ∀ (cursor next : Cursor) (index : Nat),
    cursor.choose index = .ok next → cost next ≤ cost cursor
  count_le : ∀ (host : Host) (pick : Playback → Nat) (first last : Playback) (count : Nat),
    Playback.Picking host tree pick first count last →
      count + cost last.cursor ≤ cost first.cursor
  ends : ∀ (host : Host) (pick : Playback → Nat) (first : Playback),
    (∀ playback : Playback, playback.cursor.isWaiting = true →
      pick playback < playback.cursor.pending.length) →
    ∃ count last moves next, Playback.Picking host tree pick first count last ∧
      last.step host tree moves = some (.ok false, next)

private theorem Tree.Laid.terminates {tree : Tree} (h : tree.Laid) (hacyclic : tree.Acyclic) :
    tree.Terminates (Cursor.cost tree) := by
  constructor
  · intro host playback
    cases hwait : playback.cursor.isWaiting with
    | true => exact ⟨_, _, Playback.step_of_isWaiting hwait _⟩
    | false =>
      obtain ⟨more, next, hstep, _⟩ :=
        Playback.exists_step host h hacyclic hwait (Nat.lt_succ_self _)
      exact ⟨_, next, hstep⟩
  · intro host playback next moves hstep
    exact Playback.cost_lt_of_step h hacyclic hstep
  · intro cursor next index hchoose
    exact Cursor.cost_le_of_choose tree hchoose
  · intro host pick first last count hpicking
    exact hpicking.count_le h hacyclic
  · intro host pick first hpick
    exact Playback.Picking.exists_last h hacyclic hpick .start

theorem laid_of_ok {options : Options} {checker : Checker} {lines : List String} {script : Script}
    (h : (parseLines options checker lines).result = .ok script) : script.tree.Laid := by
  obtain ⟨reading, hread, hsettled⟩ := settled_of_ok h
  have hshaped := hsettled.drawn.shaped
  have hpruned := hsettled.pruned
  constructor
  · exact hsettled.tree ▸ hshaped.forward.detach _
  · intro parent child hchild hscope
    rw [hsettled.tree, Tree.children_detach] at hchild
    rw [hpruned.isScope, ← hsettled.drawn.isScope] at hscope
    have hin := (hshaped.mem_children_iff parent child).mp (List.mem_filter.mp hchild).1
    have hne : child ≠ Tree.root := Nat.ne_of_gt (Nat.zero_lt_of_lt hin.2.lt)
    have hroot := (hshaped.mem_children_iff _ _).mp (hsettled.mem_children_root hne hscope)
    exact hin.2.eq hroot.2
  · intro id target htarget
    obtain ⟨span, key, hnode⟩ := Tree.exists_jump_of_target? htarget
    have hfind := hpruned.find?_eq_of_jump hnode
    obtain ⟨hne, hlabel⟩ := hpruned.label?_of_find? hfind
    exact ⟨hpruned.isScope_of_find? hfind, hne, Tree.lt_size_of_label? hlabel⟩

/-- Where no section leads back to itself, steps return and sessions end. A section that only
jumps to itself shows that this is needed. -/
theorem terminates_of_acyclic :
    (∀ (options : Options) (checker : Checker) (lines : List String) (script : Script),
      (parseLines options checker lines).result = .ok script → script.tree.Acyclic →
        script.tree.Terminates (Cursor.cost script.tree)) ∧
    ∃ script cursor, (parseLines {} .lenient ["= A", "-> A"]).result = .ok script ∧
      Cursor.atScope script.tree "A" = .ok cursor ∧
      ∀ (host : Host) (moves : Nat), Playback.step host script.tree moves { cursor } = none := by
  refine ⟨fun options checker lines script h hacyclic => (laid_of_ok h).terminates hacyclic, ?_⟩
  have hparsed : (parseLines {} .lenient ["= A", "-> A"]).result.toOption.map (fun script =>
      (script.tree.find? "A", (Frame.start 1).child? script.tree, script.tree.get? 2)) =
      some (some 1, some 2, some ⟨⟨1, 3, 2⟩, .leaf (.jump "A" (some 1))⟩) := by
    decide +kernel
  obtain ⟨script, hparse, hsaid⟩ := exists_ok_of_map_toOption hparsed
  obtain ⟨hfind, hrest⟩ := Prod.mk.inj hsaid
  obtain ⟨hchild, hjump⟩ := Prod.mk.inj hrest
  refine ⟨script, { frames := [.start 1] }, hparse, by rw [Cursor.atScope, hfind], ?_⟩
  intro host moves
  rw [Playback.step, if_neg (by exact Bool.false_ne_true),
    Playback.run_of_circle hchild hjump rfl]
  rfl

/-- Two jumps lead to the same section, which returns. It is counted once for each of them. -/
theorem terminates_of_two_jumps :
    let lines := ["-> hall", "= hall", "* left", "\t-> yard", "* right", "-> yard", "= yard", "<-"]
    ∃ script, (parseLines {} .lenient lines).result = .ok script ∧ script.tree.Acyclic ∧
      script.tree.Terminates (Cursor.cost script.tree) ∧ script.tree.cost 7 = 4 ∧
      script.tree.cost 1 = 20 ∧ Cursor.new.cost script.tree = 43 := by
  intro lines
  have hparsed : (parseLines {} .lenient lines).result.toOption.map (fun script =>
      ((List.range script.tree.size).all fun id => (script.tree.target? id).all (id < ·),
        script.tree.cost 7, script.tree.cost 1, Cursor.new.cost script.tree)) =
      some (true, 4, 20, 43) := by
    decide +kernel
  obtain ⟨script, hparse, hsaid⟩ := exists_ok_of_map_toOption hparsed
  obtain ⟨hforward, hrest⟩ := Prod.mk.inj hsaid
  obtain ⟨hyard, hrest⟩ := Prod.mk.inj hrest
  obtain ⟨hhall, hnew⟩ := Prod.mk.inj hrest
  have hacyclic : script.tree.Acyclic := by
    refine (laid_of_ok hparse).acyclic_of_lt fun id target htarget => ?_
    obtain ⟨span, key, hnode⟩ := Tree.exists_jump_of_target? htarget
    have hid : id < script.tree.size := (Array.getElem?_eq_some_iff.mp hnode).1
    have hall := List.all_eq_true.mp hforward id (List.mem_range.mpr hid)
    rw [htarget] at hall
    exact of_decide_eq_true hall
  exact ⟨script, hparse, hacyclic, terminates_of_acyclic.1 _ _ _ script hparse hacyclic, hyard,
    hhall, hnew⟩

end Dialogue
