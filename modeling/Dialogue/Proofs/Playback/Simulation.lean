import Dialogue.Proofs.Playback.Calls
import Dialogue.Proofs.Playback.Evaluation

/-! The stack of frames plays what the recursion plays. A turn is a move or, where
choices wait, a pick; evaluation with some fuel is followed turn by turn. -/
namespace Dialogue

structure Tree.Linked (tree : Tree) : Prop where
  root : tree.isScope Tree.root = true
  names : ∀ key id, tree.find? key = some id → tree.isScope id = true
  targets : ∀ id span key target,
    tree.get? id = some ⟨span, .leaf (.jump key (some target))⟩ → tree.isScope target = true

abbrev Turn := Playback × List Nat

namespace Playback

variable {host : Host} {tree : Tree}

/-- A move or, where choices wait, the next pick. None if the playback is over or
waits for a pick that is not there. -/
def turn? (host : Host) (tree : Tree) : Turn → Option Turn
  | (playback, picks) =>
    if playback.cursor.isWaiting then
      match picks with
      | [] => none
      | index :: rest => some (playback.perform host tree (.choose index), rest)
    else
      match playback.move host tree with
      | .on next => some (next, picks)
      | .paused next => some (next, picks)
      | .over _ => none

def turns (host : Host) (tree : Tree) : Nat → Turn → Option Turn
  | 0, state => some state
  | count + 1, state => (turn? host tree state).bind (turns host tree count)

theorem turns_add {first second : Nat} {start middle last : Turn}
    (h₁ : turns host tree first start = some middle)
    (h₂ : turns host tree second middle = some last) :
    turns host tree (first + second) start = some last := by
  induction first generalizing start with
  | zero =>
    obtain rfl := Option.some.inj h₁
    rwa [Nat.zero_add]
  | succ first ih =>
    obtain ⟨next, hnext, hrest⟩ := Option.bind_eq_some_iff.mp h₁
    rw [Nat.add_right_comm, turns, hnext, Option.bind_some]
    exact ih hrest

theorem turns_one {start last : Turn} (h : turn? host tree start = some last) :
    turns host tree 1 start = some last := by
  rw [turns, h]
  rfl

theorem turn?_of_on {playback next : Playback} (picks : List Nat)
    (hpending : playback.cursor.pending = []) (h : playback.move host tree = .on next) :
    turn? host tree (playback, picks) = some (next, picks) := by
  simp [turn?, Cursor.isWaiting, hpending, h]

theorem turn?_of_paused {playback next : Playback} (picks : List Nat)
    (hpending : playback.cursor.pending = []) (h : playback.move host tree = .paused next) :
    turn? host tree (playback, picks) = some (next, picks) := by
  simp [turn?, Cursor.isWaiting, hpending, h]

/-- A playback that stands in a frame with siblings left to play, and has shown what
the scene says. -/
structure At (tree : Tree) (frame : Frame) (below : List Frame) (siblings : List NodeId)
    (scene : Scene) (state : Turn) : Prop where
  frames : state.1.cursor.frames = frame :: below
  pending : state.1.cursor.pending = []
  siblings : (tree.children frame.node).drop frame.next = siblings
  events : state.1.events = scene.events
  picks : state.2 = scene.picks

def Meets (host : Host) (tree : Tree) (node : NodeId) (below : List Frame) (state : Turn) :
    Ending × Scene → Prop
  | (.done, scene) => ∃ frame : Frame, frame.node = node ∧ At tree frame below [] scene state
  | (.returned, scene) => state.1.cursor.pending = [] ∧ state.2 = scene.picks ∧
      ∃ (frame : Frame) (next : Playback), frame.node = node ∧
        state.1.move host tree = next.leaveScope tree (frame :: below) ∧
        next.cursor.pending = [] ∧ next.events = scene.events
  | (.ended, scene) => state.1.cursor.pending = [] ∧ state.2 = scene.picks ∧
      ∃ next : Playback, state.1.move host tree = .over next ∧ next.events = scene.events
  | (.waiting offered, scene) => state.1.cursor.pending = offered ∧ offered ≠ [] ∧
      state.2 = [] ∧ scene.picks = [] ∧ state.1.events = scene.events
  | (.cut, scene) => state.1.events = scene.events ∧ state.2 = scene.picks

/-- The turns that lead to the end of siblings. There are as many as there was fuel if
the fuel ran out. -/
def Follows (host : Host) (tree : Tree) (node : NodeId) (below : List Frame) (fuel : Nat)
    (state : Turn) (result : Ending × Scene) : Prop :=
  ∃ count last, turns host tree count state = some last ∧ Meets host tree node below last result ∧
    (result.1 = .cut → fuel ≤ count)

theorem Follows.of_turns {node : NodeId} {below : List Frame} {fuel count : Nat}
    {state middle : Turn} {result : Ending × Scene} (h : turns host tree count state = some middle)
    (hcount : 0 < count) (hrest : Follows host tree node below fuel middle result) :
    Follows host tree node below (fuel + 1) state result := by
  obtain ⟨more, last, hlast, hmeets, hcut⟩ := hrest
  refine ⟨count + more, last, turns_add h hlast, hmeets, ?_⟩
  intro heq
  have hfuel := hcut heq
  omega

theorem Follows.of_turn {node : NodeId} {below : List Frame} {fuel : Nat} {state next : Turn}
    {result : Ending × Scene} (h : turn? host tree state = some next)
    (hrest : Follows host tree node below fuel next result) :
    Follows host tree node below (fuel + 1) state result :=
  hrest.of_turns (by rw [turns, h]; rfl) Nat.one_pos

namespace At

variable {frame : Frame} {below : List Frame} {id : NodeId} {rest siblings : List NodeId}
  {scene : Scene} {state : Turn}

theorem child? (h : At tree frame below siblings scene state) :
    frame.child? tree = siblings.head? := by
  rw [Frame.child?, ← h.siblings, List.head?_drop]

theorem move_cons (host : Host) (h : At tree frame below (id :: rest) scene state) :
    state.1.move host tree = state.1.play host tree frame below id := by
  rw [move, h.frames]
  simp only [h.child?, List.head?_cons]

theorem move_nil_of_isScope (host : Host) (h : At tree frame below [] scene state)
    (hscope : tree.isScope frame.node = true) :
    state.1.move host tree =
      .over (state.1.note (.endOfScope (tree.lineOf frame.node))).finish := by
  rw [move, h.frames]
  simp only [h.child?, List.head?_nil, hscope, if_true]

private theorem move_nil (host : Host) (h : At tree frame below [] scene state)
    (hscope : tree.isScope frame.node = false) :
    state.1.move host tree = .on (state.1.withFrames below) := by
  rw [move, h.frames]
  simp [h.child?, hscope]

theorem siblings_skip (h : At tree frame below siblings scene state) (count : Nat) :
    (tree.children (frame.skip count).node).drop (frame.skip count).next = siblings.drop count := by
  rw [← h.siblings, List.drop_drop]
  rfl

end At

theorem evaluate_eq_ask (host : Host) {playback : Playback} {scene : Scene} (text : String)
    (hasBody : Bool) (h : playback.events = scene.events) :
    (playback.evaluate host text hasBody).1 = (scene.ask host text hasBody).1 ∧
      (playback.evaluate host text hasBody).2.events = (scene.ask host text hasBody).2.events := by
  simp only [evaluate, emit, Scene.ask, Scene.emit, h, and_self]

theorem sift_cons (host : Host) (tree : Tree) (scene : Scene) (id : NodeId)
    (rest : List NodeId) :
    scene.sift host tree (id :: rest) =
      match (tree.get? id).bind Node.condition? with
      | none =>
        let sifted := scene.sift host tree rest
        (id :: sifted.1, sifted.2)
      | some guard =>
        let asked := scene.ask host guard true
        let sifted := asked.2.sift host tree rest
        (if asked.1 then id :: sifted.1 else sifted.1, sifted.2) := by
  rw [Scene.sift]
  cases tree.get? id with
  | none => rfl
  | some node =>
    obtain ⟨span, content⟩ := node
    cases content with
    | leaf => rfl
    | block block body =>
      cases block with
      | choice text guard => cases guard <;> rfl
      | _ => rfl

theorem offer_eq (tree : Tree) (scene : Scene) (offered : List NodeId) :
    scene.offer tree offered =
      scene.emit (.offered (offered.filterMap fun id => (tree.get? id).bind Node.offer?)) := by
  rw [Scene.offer]
  congr
  funext id
  cases tree.get? id with
  | none => rfl
  | some node =>
    obtain ⟨span, content⟩ := node
    cases content with
    | leaf => rfl
    | block block body => cases block <;> rfl

theorem sift_eq_sift (host : Host) (tree : Tree) {playback : Playback} {scene : Scene}
    (choices : List NodeId) (h : playback.events = scene.events) :
    (playback.sift host tree choices).1 = (scene.sift host tree choices).1 ∧
      (playback.sift host tree choices).2.events = (scene.sift host tree choices).2.events ∧
      (playback.sift host tree choices).2.cursor = playback.cursor ∧
      (scene.sift host tree choices).2.picks = scene.picks := by
  induction choices generalizing playback scene with
  | nil => exact ⟨rfl, h, rfl, rfl⟩
  | cons id choices ih =>
    simp only [sift, sift_cons]
    cases (tree.get? id).bind Node.condition? with
    | none =>
      obtain ⟨hkept, hrest⟩ := ih h
      exact ⟨congrArg (id :: ·) hkept, hrest⟩
    | some guard =>
      obtain ⟨hanswer, hasked⟩ := evaluate_eq_ask host guard true h
      obtain ⟨hkept, hrest⟩ := ih hasked
      refine ⟨?_, hrest⟩
      simp only [hanswer, hkept]

private theorem mem_of_mem_sift {scene : Scene} {choices : List NodeId} {choice : NodeId}
    (h : choice ∈ (scene.sift host tree choices).1) : choice ∈ choices := by
  induction choices generalizing scene with
  | nil => exact h
  | cons id choices ih =>
    rw [sift_cons] at h
    cases hguard : (tree.get? id).bind Node.condition? with
    | none =>
      simp only [hguard] at h
      rcases List.mem_cons.mp h with rfl | hrest
      · exact List.mem_cons_self
      · exact List.mem_cons_of_mem _ (ih hrest)
    | some guard =>
      simp only [hguard] at h
      split at h
      · rcases List.mem_cons.mp h with rfl | hrest
        · exact List.mem_cons_self
        · exact List.mem_cons_of_mem _ (ih hrest)
      · exact List.mem_cons_of_mem _ (ih h)

private theorem mem_of_pick {offered : List NodeId} {picks rest : List Nat} {choice : NodeId}
    (h : Scene.pick offered picks = (some choice, rest)) : choice ∈ offered := by
  induction picks with
  | nil => simp [Scene.pick] at h
  | cons index picks ih =>
    rw [Scene.pick] at h
    split at h
    next hsome =>
      obtain rfl := Option.some.inj (Prod.mk.inj h).1
      exact List.mem_of_getElem? hsome
    next => exact ih h

theorem choose_of_getElem? {playback : Playback} {index : Nat} {choice : NodeId}
    (h : playback.cursor.pending[index]? = some choice) :
    playback.choose index = .ok ({ playback with
      cursor := { playback.cursor.enter choice with pending := [] } }.note (.picked index)) := by
  simp only [choose, Cursor.choose, h]
  rfl

private theorem turn?_of_choice (host : Host) (tree : Tree) {playback : Playback} {index : Nat}
    {picks : List Nat} {choice : NodeId} (h : playback.cursor.pending[index]? = some choice) :
    ∃ next : Playback, turn? host tree (playback, index :: picks) = some (next, picks) ∧
      next.cursor.frames = .start choice :: playback.cursor.frames ∧ next.cursor.pending = [] ∧
      next.events = playback.events := by
  have hwait : playback.cursor.isWaiting = true := by
    cases hpending : playback.cursor.pending with
    | nil => simp [hpending] at h
    | cons => simp [Cursor.isWaiting, hpending]
  refine ⟨note { playback with cursor := { playback.cursor.enter choice with pending := [] } }
    (.picked index), ?_, rfl, rfl, rfl⟩
  simp only [turn?, hwait, if_true]
  rw [perform_choose_of_choose (choose_of_getElem? h)]

theorem turn?_of_refused {playback : Playback} {index : Nat} {picks : List Nat}
    (hwait : playback.cursor.isWaiting = true) (h : playback.cursor.pending[index]? = none) :
    turn? host tree (playback, index :: picks) = some (playback, picks) := by
  have hsame : playback.perform host tree (.choose index) = playback := by
    simp [perform, choose, Cursor.choose, h, Except.map]
  simp only [turn?, hwait, if_true, hsame]

theorem turns_of_pick_none (host : Host) (tree : Tree) {playback : Playback}
    {picks rest : List Nat} (hwait : playback.cursor.isWaiting = true)
    (h : Scene.pick playback.cursor.pending picks = (none, rest)) :
    rest = [] ∧ ∃ count, turns host tree count (playback, picks) = some (playback, []) := by
  induction picks with
  | nil => exact ⟨(Prod.mk.inj h).2.symm, 0, rfl⟩
  | cons index picks ih =>
    rw [Scene.pick] at h
    split at h
    next => simp at h
    next hnone =>
      obtain ⟨hrest, count, hcount⟩ := ih h
      refine ⟨hrest, count + 1, ?_⟩
      rw [turns, turn?_of_refused hwait hnone]
      exact hcount

private theorem turns_of_pick_some {playback : Playback} {picks rest : List Nat} {choice : NodeId}
    (hwait : playback.cursor.isWaiting = true)
    (h : Scene.pick playback.cursor.pending picks = (some choice, rest)) :
    ∃ count next, turns host tree count (playback, picks) = some (next, rest) ∧
      next.cursor.frames = .start choice :: playback.cursor.frames ∧
      next.cursor.pending = [] ∧ next.events = playback.events := by
  induction picks with
  | nil => simp [Scene.pick] at h
  | cons index picks ih =>
    rw [Scene.pick] at h
    split at h
    next hsome =>
      obtain ⟨hchoice, rfl⟩ := Prod.mk.inj h
      obtain rfl := Option.some.inj hchoice
      obtain ⟨next, hturn, hnext⟩ := turn?_of_choice host tree hsome
      exact ⟨1, next, by rw [turns, hturn, Option.bind_some, turns], hnext⟩
    next hnone =>
      obtain ⟨count, next, hcount, hnext⟩ := ih h
      refine ⟨count + 1, next, ?_, hnext⟩
      rw [turns, turn?_of_refused hwait hnone]
      exact hcount

/-- Evaluation with this much fuel is followed wherever a playback stands. -/
def Followed (host : Host) (tree : Tree) (fuel : Nat) : Prop :=
  ∀ (frame : Frame) {below : List Frame} {siblings : List NodeId} {scene : Scene} {state : Turn},
    At tree frame below siblings scene state →
      Follows host tree frame.node below fuel state (tree.evaluate host fuel siblings scene)

section Cases

variable {fuel : Nat} {frame : Frame} {below : List Frame} {id : NodeId}
  {rest siblings : List NodeId} {scene shown : Scene} {state : Turn} {result : Ending × Scene}

theorem Followed.skip (hfollowed : Followed host tree fuel)
    (h : At tree frame below siblings scene state) {next : Playback} (count : Nat)
    (hturn : turn? host tree state = some (next, state.2))
    (hframes : next.cursor.frames = frame.skip count :: below)
    (hpending : next.cursor.pending = []) (hevents : next.events = shown.events)
    (hpicks : shown.picks = scene.picks) :
    Follows host tree frame.node below (fuel + 1) state
      (tree.evaluate host fuel (siblings.drop count) shown) := by
  have hat : At tree (frame.skip count) below (siblings.drop count) shown (next, state.2) :=
    ⟨hframes, hpending, h.siblings_skip count, hevents, h.picks.trans hpicks.symm⟩
  exact .of_turn hturn (hfollowed (frame.skip count) hat)

/-- A body that is left at its end goes on behind the block, and leaves it at a return. -/
theorem Followed.behind_body (hfollowed : Followed host tree fuel)
    (hscope : tree.isScope id = false)
    (hrest : (tree.children frame.node).drop frame.next = rest)
    (hbody : Follows host tree id (frame :: below) fuel state result) :
    Follows host tree frame.node below fuel state
      (Ending.behindBody (tree.evaluate host fuel rest) result) := by
  obtain ⟨count, last, hcount, hmeets, hcut⟩ := hbody
  obtain ⟨ending, after⟩ := result
  cases ending with
  | done =>
    obtain ⟨inner, hnode, hat⟩ := hmeets
    have hturn := turn?_of_on last.2 hat.pending (hat.move_nil host (hnode ▸ hscope))
    have hbehind : At tree frame below rest after (last.1.withFrames (frame :: below), last.2) :=
      ⟨rfl, hat.pending, hrest, hat.events, hat.picks⟩
    obtain ⟨more, final, hfinal, hend, hfuel⟩ := Follows.of_turn hturn (hfollowed frame hbehind)
    refine ⟨count + more, final, turns_add hcount hfinal, hend, ?_⟩
    intro heq
    have hle := hfuel heq
    omega
  | returned =>
    obtain ⟨hpending, hpicks, inner, next, hnode, hmove, hnext⟩ := hmeets
    refine ⟨count, last, hcount, ⟨hpending, hpicks, frame, next, rfl, ?_, hnext⟩, fun h => nomatch h⟩
    rw [hmove, leaveScope, hnode, hscope]
    rfl
  | ended => exact ⟨count, last, hcount, hmeets, hcut⟩
  | waiting offered => exact ⟨count, last, hcount, hmeets, hcut⟩
  | cut => exact ⟨count, last, hcount, hmeets, hcut⟩

theorem Followed.behind_jump (hfollowed : Followed host tree fuel)
    (hscope : tree.isScope id = true)
    (hrest : (tree.children frame.node).drop frame.next = rest)
    (hbody : Follows host tree id (frame :: below) fuel state result) :
    Follows host tree frame.node below fuel state
      (Ending.behindJump (tree.evaluate host fuel rest) result) := by
  obtain ⟨count, last, hcount, hmeets, hcut⟩ := hbody
  obtain ⟨ending, after⟩ := result
  cases ending with
  | done =>
    obtain ⟨inner, hnode, hat⟩ := hmeets
    have hmove := hat.move_nil_of_isScope host (hnode ▸ hscope)
    exact ⟨count, last, hcount, ⟨hat.pending, hat.picks, _, hmove, hat.events⟩, fun h => nomatch h⟩
  | returned =>
    obtain ⟨hpending, hpicks, inner, next, hnode, hmove, hidle, hevents⟩ := hmeets
    rw [leaveScope, hnode, hscope, if_pos rfl] at hmove
    have hturn := turn?_of_on last.2 hpending hmove
    have hbehind : At tree frame below rest after
        ((next.withFrames (frame :: below)).note (.returned (tree.lineOf id)), last.2) :=
      ⟨rfl, hidle, hrest, hevents, hpicks⟩
    obtain ⟨more, final, hfinal, hend, hfuel⟩ := Follows.of_turn hturn (hfollowed frame hbehind)
    refine ⟨count + more, final, turns_add hcount hfinal, hend, ?_⟩
    intro heq
    have hle := hfuel heq
    omega
  | ended => exact ⟨count, last, hcount, hmeets, hcut⟩
  | waiting offered => exact ⟨count, last, hcount, hmeets, hcut⟩
  | cut => exact ⟨count, last, hcount, hmeets, hcut⟩

theorem Followed.enter (hfollowed : Followed host tree fuel)
    (h : At tree frame below siblings scene state) {next : Playback} {picks : List Nat}
    {turned : Nat} (count : Nat) (hturns : turns host tree turned state = some (next, picks))
    (hturned : 0 < turned) (hscope : tree.isScope id = false)
    (hframes : next.cursor.frames = .start id :: frame.skip count :: below)
    (hpending : next.cursor.pending = []) (hevents : next.events = shown.events)
    (hpicks : picks = shown.picks) :
    Follows host tree frame.node below (fuel + 1) state
      (Ending.behindBody (tree.evaluate host fuel (siblings.drop count))
        (tree.evaluate host fuel (tree.children id) shown)) := by
  have hat : At tree (.start id) (frame.skip count :: below) (tree.children id) shown
      (next, picks) := ⟨hframes, hpending, rfl, hevents, hpicks⟩
  have hbody := hfollowed (.start id) hat
  have hrest := hfollowed.behind_body hscope (h.siblings_skip count) hbody
  exact .of_turns hturns hturned hrest

private theorem Followed.command (hfollowed : Followed host tree fuel) {span : Span} {text : String}
    {body : List NodeId} (h : At tree frame below (id :: rest) scene state)
    (hnode : tree.get? id = some ⟨span, .block (.command text) body⟩) :
    Follows host tree frame.node below (fuel + 1) state
      (tree.evaluate host (fuel + 1) (id :: rest) scene) := by
  have hmove := h.move_cons host
  simp only [play, hnode] at hmove
  simp only [Tree.evaluate, hnode, Option.map_some]
  obtain ⟨hanswer, hevents⟩ := evaluate_eq_ask host text (!body.isEmpty)
    ((events_pass state.1 frame below ⟨span, .block (.command text) body⟩).trans h.events)
  rw [hanswer] at hmove
  split
  next hplayed =>
    rw [if_pos hplayed] at hmove
    have hturn := turns_one (turn?_of_on state.2 h.pending hmove)
    have hscope : tree.isScope id = false := by
      simp [Tree.isScope, hnode, Node.isScope, Content.isScope, Block.isScope]
    have hchildren : tree.children id = body := by
      simp [Tree.children, hnode, Node.children, Content.children]
    have hfollows := hfollowed.enter h 1 hturn Nat.one_pos hscope rfl h.pending hevents h.picks
    rwa [hchildren] at hfollows
  next hplayed =>
    rw [if_neg hplayed] at hmove
    exact hfollowed.skip h 1 (turn?_of_on state.2 h.pending hmove) rfl h.pending hevents rfl

theorem Followed.transfer (hfollowed : Followed host tree fuel)
    (h : At tree frame below siblings scene state) {next : Playback} (count : Nat)
    (hturn : turn? host tree state = some (next, state.2)) (hscope : tree.isScope id = true)
    (hframes : next.cursor.frames = .start id :: frame.skip count :: below)
    (hpending : next.cursor.pending = []) (hevents : next.events = scene.events) :
    Follows host tree frame.node below (fuel + 1) state
      (Ending.behindJump (tree.evaluate host fuel (siblings.drop count))
        (tree.evaluate host fuel (tree.children id) scene)) := by
  have hat : At tree (.start id) (frame.skip count :: below) (tree.children id) scene
      (next, state.2) := ⟨hframes, hpending, rfl, hevents, h.picks⟩
  have hbody := hfollowed (.start id) hat
  have hrest := hfollowed.behind_jump hscope (h.siblings_skip count) hbody
  exact .of_turn hturn hrest

private theorem Followed.jump (hfollowed : Followed host tree fuel) (htree : tree.Linked)
    {span : Span} {key : String} {target : NodeId}
    (h : At tree frame below (id :: rest) scene state)
    (hnode : tree.get? id = some ⟨span, .leaf (.jump key (some target))⟩) :
    Follows host tree frame.node below (fuel + 1) state
      (tree.evaluate host (fuel + 1) (id :: rest) scene) := by
  have hmove := h.move_cons host
  simp only [play, hnode] at hmove
  simp only [Tree.evaluate, hnode, Option.map_some]
  have hscope := htree.targets id span key target hnode
  exact hfollowed.transfer h 1 (turn?_of_on state.2 h.pending hmove) hscope rfl h.pending h.events

theorem Followed.pick (hfollowed : Followed host tree fuel)
    (h : At tree frame below siblings scene state) {next : Playback} {offered : List NodeId}
    (count : Nat) (hturn : turn? host tree state = some (next, state.2)) (hne : offered ≠ [])
    (hoffered : next.cursor.pending = offered)
    (hframes : next.cursor.frames = frame.skip count :: below)
    (hevents : next.events = shown.events)
    (hscopes : ∀ choice ∈ offered, tree.isScope choice = false) :
    Follows host tree frame.node below (fuel + 1) state
      (match Scene.pick offered state.2 with
      | (none, picks) => (.waiting offered, { shown with picks })
      | (some choice, picks) =>
        tree.evaluate host fuel (tree.children choice) { shown with picks }
          |> Ending.behindBody (tree.evaluate host fuel (siblings.drop count))) := by
  have hwait : next.cursor.isWaiting = true := by
    cases offered with
    | nil => contradiction
    | cons => rw [Cursor.isWaiting, hoffered]; rfl
  split
  next picks hpick =>
    obtain ⟨rfl, more, hmore⟩ := turns_of_pick_none host tree hwait (hoffered ▸ hpick)
    have hturns := turns_add (turns_one hturn) hmore
    exact ⟨_, _, hturns, ⟨hoffered, hne, rfl, rfl, hevents⟩, fun h => nomatch h⟩
  next choice picks hpick =>
    obtain ⟨more, last, hmore, hlast, hidle, hsame⟩ :=
      turns_of_pick_some hwait (hoffered ▸ hpick)
    have hturns := turns_add (turns_one hturn) hmore
    have hentered : last.cursor.frames = .start choice :: frame.skip count :: below := by
      rw [hlast, hframes]
    exact hfollowed.enter h count hturns (by omega) (hscopes choice (mem_of_pick hpick)) hentered
      hidle (hsame.trans hevents) rfl

private theorem drop_choices {siblings : List NodeId}
    (h : (tree.children frame.node).drop frame.next = siblings) :
    frame.choices tree = siblings.takeWhile tree.isChoice ∧
      siblings.dropWhile tree.isChoice = siblings.drop (frame.choices tree).length := by
  have hchoices : frame.choices tree = siblings.takeWhile tree.isChoice := by
    rw [Frame.choices, h]
  have hsplit := List.takeWhile_append_dropWhile (p := tree.isChoice) (l := siblings)
  have hdrop := congrArg (List.drop (frame.choices tree).length) hsplit
  rw [hchoices, List.drop_left, ← hchoices] at hdrop
  exact ⟨hchoices, hdrop⟩

theorem Followed.choice (hfollowed : Followed host tree fuel) {span : Span} {text : String}
    {condition : Option String} {body : List NodeId}
    (h : At tree frame below (id :: rest) scene state)
    (hnode : tree.get? id = some ⟨span, .block (.choice text condition) body⟩) :
    Follows host tree frame.node below (fuel + 1) state
      (tree.evaluate host (fuel + 1) (id :: rest) scene) := by
  obtain ⟨hchoices, hbehind⟩ := drop_choices h.siblings
  have hmove := h.move_cons host
  simp only [play, hnode, offer] at hmove
  simp only [Tree.evaluate, hnode, Option.map_some, hbehind, ← hchoices]
  generalize hstand : (state.1.pass frame below _).withFrames _ = standing at hmove
  have hevents : standing.events = scene.events := by rw [← hstand]; exact h.events
  have hpending : standing.cursor.pending = [] := by rw [← hstand]; exact h.pending
  have hframes : standing.cursor.frames = frame.skip (frame.choices tree).length :: below := by
    rw [← hstand]; rfl
  obtain ⟨hkept, hsifted, hcursor, hpicks⟩ := sift_eq_sift host tree (frame.choices tree) hevents
  have hscopes (choice : NodeId) (hchoice : choice ∈ (scene.sift host tree (frame.choices tree)).1) :
      tree.isScope choice = false :=
    Tree.isScope_of_isChoice
      (List.all_eq_true.mp List.all_takeWhile choice (hchoices ▸ mem_of_mem_sift hchoice))
  revert hmove hkept hsifted hcursor hpicks hscopes
  generalize sift host tree standing (frame.choices tree) = machine
  generalize scene.sift host tree (frame.choices tree) = meaning
  obtain ⟨kept, sifted⟩ := machine
  obtain ⟨offered, shown⟩ := meaning
  rintro hmove rfl hsifted hcursor hpicks hscopes
  dsimp only at hmove hsifted hcursor hpicks hscopes
  cases kept with
  | nil =>
    have hturn := turn?_of_on state.2 h.pending hmove
    exact hfollowed.skip h _ hturn (hcursor ▸ hframes) (hcursor ▸ hpending) hsifted hpicks
  | cons first others =>
    have hturn := turn?_of_paused state.2 h.pending hmove
    dsimp only
    rw [show shown.picks = state.2 from hpicks.trans h.picks.symm]
    rw [offer_eq]
    refine hfollowed.pick h _ hturn (List.cons_ne_nil first others) rfl ?_ ?_ hscopes
    · rw [← hframes, ← hcursor]
      rfl
    · show sifted.events.push _ = shown.events.push _
      rw [hsifted]

end Cases

/-- Whatever the recursion does with some fuel, the stack of frames does in turns. -/
theorem followed (host : Host) (htree : tree.Linked) (fuel : Nat) : Followed host tree fuel := by
  -- Every call of the evaluator is on one unit of fuel less, be it for a body, for a section that
  -- is jumped into or for what comes behind.
  induction fuel with
  | zero =>
    intro frame below siblings scene state h
    exact ⟨0, state, rfl, ⟨h.events, h.picks⟩, fun _ => Nat.le_refl 0⟩
  | succ fuel ih =>
    intro frame below siblings scene state h
    cases siblings with
    | nil => exact ⟨0, state, rfl, ⟨frame, rfl, h⟩, fun h => nomatch h⟩
    | cons id rest =>
      have hmove := h.move_cons host
      cases hnode : tree.get? id with
      | none =>
        simp only [play, hnode] at hmove
        simp only [Tree.evaluate, hnode, Option.map_none]
        exact ih.skip h 1 (turn?_of_on state.2 h.pending hmove) rfl h.pending h.events rfl
      | some node =>
        obtain ⟨span, content⟩ := node
        cases content with
        | block block body =>
          cases block with
          | scope key =>
            simp only [play, hnode] at hmove
            simp only [Tree.evaluate, hnode, Option.map_some]
            exact ⟨0, state, rfl, ⟨h.pending, h.picks, _, hmove, h.events⟩, fun h => nomatch h⟩
          | command text => exact ih.command h hnode
          | choice text condition => exact ih.choice h hnode
        | leaf leaf =>
          cases leaf with
          | line text =>
            simp only [play, hnode] at hmove
            simp only [Tree.evaluate, hnode, Option.map_some]
            have hevents : state.1.events.push (.line text) = (scene.emit (.line text)).events := by
              rw [h.events]
              rfl
            exact ih.skip h 1 (turn?_of_paused state.2 h.pending hmove) rfl h.pending hevents rfl
          | comment text =>
            simp only [play, hnode] at hmove
            simp only [Tree.evaluate, hnode, Option.map_some]
            exact ih.skip h 1 (turn?_of_on state.2 h.pending hmove) rfl h.pending h.events rfl
          | jump key target =>
            cases target with
            | none =>
              simp only [play, hnode] at hmove
              simp only [Tree.evaluate, hnode, Option.map_some]
              exact ih.skip h 1 (turn?_of_on state.2 h.pending hmove) rfl h.pending h.events rfl
            | some target => exact ih.jump htree h hnode
          | back =>
            simp only [play, hnode] at hmove
            simp only [Tree.evaluate, hnode, Option.map_some]
            exact ⟨0, state, rfl, ⟨h.pending, h.picks, frame.skip 1, _, rfl, hmove, h.pending,
              h.events⟩, fun h => nomatch h⟩

end Playback
end Dialogue
