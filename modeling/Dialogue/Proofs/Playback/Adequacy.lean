import Dialogue.Proofs.Playback.Sessions

/-! Sessions show what evaluation says, on trees in which jumps lead to sections. -/
namespace Dialogue.Playback

variable {host : Host} {tree : Tree} {cursor : Cursor} {siblings : List NodeId}
  {picks : List Nat} {scene : Scene}

/-- Where a session begins, and the siblings that are played from there. -/
inductive Opens (tree : Tree) : Cursor → List NodeId → Prop
  | new : Opens tree .new (tree.children Tree.root)
  | atScope {key : String} {id : NodeId} {cursor : Cursor} : tree.find? key = some id →
      Cursor.atScope tree key = .ok cursor → Opens tree cursor (tree.children id)

private theorem Opens.at (htree : tree.Linked) (h : Opens tree cursor siblings) (picks : List Nat) :
    ∃ frame : Frame, tree.isScope frame.node = true ∧
      At tree frame [] siblings { picks } ({ cursor }, picks) := by
  cases h with
  | new => exact ⟨.start Tree.root, htree.root, rfl, rfl, rfl, rfl, rfl⟩
  | @atScope key id cursor hfind hcursor =>
    obtain rfl := Cursor.eq_of_atScope hfind hcursor
    exact ⟨.start id, htree.names key id hfind, rfl, rfl, rfl, rfl, rfl⟩

def EndsIn (host : Host) (tree : Tree) (scene : Scene) (state : Turn) : Prop :=
  state.1.cursor.isWaiting = false ∧ state.2 = scene.picks ∧
    ∃ last, state.1.move host tree = .over last ∧ last.events = scene.events

def WaitsIn (offered : List NodeId) (scene : Scene) (state : Turn) : Prop :=
  state.1.cursor.pending = offered ∧ offered ≠ [] ∧ state.2 = [] ∧ scene.picks = [] ∧
    state.1.events = scene.events

theorem EndsIn.turn?_eq_none {state : Turn} (h : EndsIn host tree scene state) :
    turn? host tree state = none := by
  obtain ⟨hidle, _, last, hmove, _⟩ := h
  simp [turn?, hidle, hmove]

theorem WaitsIn.isWaiting {offered : List NodeId} {state : Turn}
    (h : WaitsIn offered scene state) : state.1.cursor.isWaiting = true := by
  obtain ⟨hpending, hne, _⟩ := h
  simp [Cursor.isWaiting, hpending, hne]

theorem WaitsIn.turn?_eq_none {offered : List NodeId} {state : Turn}
    (h : WaitsIn offered scene state) : turn? host tree state = none := by
  obtain ⟨playback, picks⟩ := state
  obtain rfl : picks = [] := h.2.2.1
  have hwait := h.isWaiting
  simp only at hwait
  simp [turn?, hwait]

/-- A state at the end of siblings in a section with nothing below it is at the end
of the playback, or one turn before it. -/
theorem endsIn_of_meets {frame : Frame} {ending : Ending} {state : Turn}
    (hscope : tree.isScope frame.node = true) (hover : ending.isOver = true)
    (h : Meets host tree frame.node [] state (ending, scene)) :
    ∃ count last, turns host tree count state = some last ∧ EndsIn host tree scene last := by
  cases ending with
  | done =>
    obtain ⟨inner, hnode, hat⟩ := h
    have hmove := hat.move_nil_of_isScope host (hnode ▸ hscope)
    exact ⟨0, state, rfl, isWaiting_eq_false_iff.mpr hat.pending, hat.picks, _, hmove, hat.events⟩
  | returned =>
    obtain ⟨hpending, hpicks, inner, next, hnode, hmove, hidle, hevents⟩ := h
    rw [leaveScope, hnode, hscope, if_pos rfl] at hmove
    refine ⟨1, _, turns_one (turn?_of_on state.2 hpending hmove), ?_⟩
    exact ⟨isWaiting_eq_false_iff.mpr hidle, hpicks, _, rfl, hevents⟩
  | ended =>
    obtain ⟨hpending, hpicks, hlast⟩ := h
    exact ⟨0, state, rfl, isWaiting_eq_false_iff.mpr hpending, hpicks, hlast⟩
  | waiting offered => contradiction
  | cut => contradiction

def Closes (host : Host) (tree : Tree) (state : Turn) : Ending × Scene → Prop
  | (.waiting offered, scene) => WaitsIn offered scene state
  | (.cut, scene) => state.1.events = scene.events ∧ state.2 = scene.picks
  | (_, scene) => EndsIn host tree scene state

theorem Closes.turn?_eq_none {state : Turn} {result : Ending × Scene}
    (h : Closes host tree state result) (hcut : result.1 ≠ .cut) :
    turn? host tree state = none := by
  obtain ⟨ending, scene⟩ := result
  cases ending with
  | done => exact EndsIn.turn?_eq_none h
  | returned => exact EndsIn.turn?_eq_none h
  | ended => exact EndsIn.turn?_eq_none h
  | waiting offered => exact WaitsIn.turn?_eq_none h
  | cut => exact absurd rfl hcut

theorem turns_of_evaluate (host : Host) (picks : List Nat) (htree : tree.Linked)
    (hopens : Opens tree cursor siblings) (fuel : Nat) :
    ∃ count last, turns host tree count ({ cursor }, picks) = some last ∧
      Closes host tree last (tree.evaluate host fuel siblings { picks }) ∧
      ((tree.evaluate host fuel siblings { picks }).1 = .cut → fuel ≤ count) := by
  obtain ⟨frame, hscope, hat⟩ := hopens.at htree picks
  obtain ⟨count, last, hcount, hmeets, hcut⟩ := followed host htree fuel frame hat
  revert hmeets hcut
  generalize tree.evaluate host fuel siblings { picks } = result
  obtain ⟨ending, scene⟩ := result
  intro hmeets hcut
  have hover (h : ending.isOver = true) := endsIn_of_meets hscope h hmeets
  cases ending with
  | done =>
    obtain ⟨more, final, hmore, hends⟩ := hover rfl
    exact ⟨_, final, turns_add hcount hmore, hends, fun h => nomatch h⟩
  | returned =>
    obtain ⟨more, final, hmore, hends⟩ := hover rfl
    exact ⟨_, final, turns_add hcount hmore, hends, fun h => nomatch h⟩
  | ended =>
    obtain ⟨more, final, hmore, hends⟩ := hover rfl
    exact ⟨_, final, turns_add hcount hmore, hends, fun h => nomatch h⟩
  | waiting offered => exact ⟨count, last, hcount, hmeets, fun h => nomatch h⟩
  | cut => exact ⟨count, last, hcount, hmeets, hcut⟩

theorem exists_closes_of_turns (htree : tree.Linked) (hopens : Opens tree cursor siblings)
    {count : Nat} {last : Turn} (h : turns host tree count ({ cursor }, picks) = some last)
    (hlast : turn? host tree last = none) :
    ∃ fuel, (tree.evaluate host fuel siblings { picks }).1 ≠ .cut ∧
      Closes host tree last (tree.evaluate host fuel siblings { picks }) := by
  refine ⟨count + 1, ?_⟩
  obtain ⟨more, final, hmore, hcloses, hcut⟩ :=
    turns_of_evaluate host picks htree hopens (count + 1)
  have hfuel : (tree.evaluate host (count + 1) siblings { picks }).1 ≠ .cut := by
    intro heq
    obtain ⟨left, hleft, _⟩ := turns_of_turn?_none h hlast hmore
    have hle := hcut heq
    omega
  refine ⟨hfuel, ?_⟩
  rwa [eq_of_turn?_none h hlast hmore (hcloses.turn?_eq_none hfuel)]

private theorem EndsIn.eq {state : Turn} {other : Scene} (h : EndsIn host tree scene state)
    (hother : EndsIn host tree other state) : scene = other := by
  obtain ⟨_, hpicks, last, hmove, hevents⟩ := h
  obtain ⟨_, hsame, next, hnext, hshown⟩ := hother
  obtain rfl := Move.over.inj (hmove.symm.trans hnext)
  cases scene
  cases other
  simp_all

/-- Evaluation comes to an end exactly if a session does, with the same events and
the same picks left. -/
theorem evaluate_isOver_iff (htree : tree.Linked) (hopens : Opens tree cursor siblings) :
    (∃ fuel ending, ending.isOver = true ∧
      tree.evaluate host fuel siblings { picks } = (ending, scene)) ↔
    ∃ last moves next, Driven host tree { cursor } picks last scene.picks ∧
      last.step host tree moves = some (.ok false, next) ∧ next.events = scene.events := by
  constructor
  · rintro ⟨fuel, ending, hover, heq⟩
    obtain ⟨count, ⟨last, left⟩, hcount, hcloses, _⟩ :=
      turns_of_evaluate host picks htree hopens fuel
    rw [heq] at hcloses
    have hends : EndsIn host tree scene (last, left) := by
      cases ending <;> first | exact hcloses | contradiction
    obtain ⟨hidle, hpicks, next, hmove, hevents⟩ := hends
    obtain ⟨playback, moves, hdriven, hahead⟩ := driven_of_turns hcount
    obtain rfl : left = scene.picks := hpicks
    exact ⟨playback, moves + 1, next, hdriven, hahead.step_of_over hidle hmove, hevents⟩
  · rintro ⟨last, moves, next, hdriven, hstep, hevents⟩
    obtain ⟨count, hcount⟩ := turns_of_driven hdriven
    obtain ⟨hidle, hrun⟩ := run_of_step hstep
    obtain ⟨more, before, hmore, hbefore, hmove⟩ := turns_of_run scene.picks hidle hrun
    have hends : EndsIn host tree scene (before, scene.picks) :=
      ⟨hbefore, rfl, next, hmove, hevents⟩
    obtain ⟨fuel, hcut, hcloses⟩ := exists_closes_of_turns htree hopens (turns_add hcount hmore)
      hends.turn?_eq_none
    refine ⟨fuel, (tree.evaluate host fuel siblings { picks }).1, ?_⟩
    revert hcut hcloses
    generalize tree.evaluate host fuel siblings { picks } = result
    obtain ⟨ending, shown⟩ := result
    intro hcut hcloses
    cases ending with
    | done => exact ⟨rfl, congrArg _ (EndsIn.eq hcloses hends)⟩
    | returned => exact ⟨rfl, congrArg _ (EndsIn.eq hcloses hends)⟩
    | ended => exact ⟨rfl, congrArg _ (EndsIn.eq hcloses hends)⟩
    | waiting offered =>
      have hwait := WaitsIn.isWaiting hcloses
      rw [hends.1] at hwait
      contradiction
    | cut => exact absurd rfl hcut

/-- Evaluation waits for a pick exactly if a session does, with the same offer. -/
theorem evaluate_waiting_iff (htree : tree.Linked) (hopens : Opens tree cursor siblings)
    {offered : List NodeId} :
    (∃ fuel, tree.evaluate host fuel siblings { picks } = (.waiting offered, scene)) ↔
    ∃ last, Driven host tree { cursor } picks last [] ∧ scene.picks = [] ∧
      last.cursor.pending = offered ∧ offered ≠ [] ∧ last.events = scene.events := by
  constructor
  · rintro ⟨fuel, heq⟩
    obtain ⟨count, ⟨last, left⟩, hcount, hcloses, _⟩ :=
      turns_of_evaluate host picks htree hopens fuel
    rw [heq] at hcloses
    have hwait := WaitsIn.isWaiting hcloses
    obtain ⟨hpending, hne, rfl, hpicks, hevents⟩ := hcloses
    obtain ⟨playback, moves, hdriven, hahead⟩ := driven_of_turns hcount
    obtain rfl := hahead.eq_of_isWaiting hwait
    exact ⟨playback, hdriven, hpicks, hpending, hne, hevents⟩
  · rintro ⟨last, hdriven, hpicks, hpending, hne, hevents⟩
    obtain ⟨count, hcount⟩ := turns_of_driven hdriven
    have hwaits : WaitsIn offered scene (last, []) := ⟨hpending, hne, rfl, hpicks, hevents⟩
    obtain ⟨fuel, hcut, hcloses⟩ := exists_closes_of_turns htree hopens hcount
      hwaits.turn?_eq_none
    refine ⟨fuel, ?_⟩
    revert hcut hcloses
    generalize tree.evaluate host fuel siblings { picks } = result
    obtain ⟨ending, shown⟩ := result
    intro hcut hcloses
    have hends (h : EndsIn host tree shown (last, [])) : False := by
      have hwait := hwaits.isWaiting
      rw [h.1] at hwait
      contradiction
    cases ending with
    | done => exact (hends hcloses).elim
    | returned => exact (hends hcloses).elim
    | ended => exact (hends hcloses).elim
    | waiting same =>
      obtain ⟨hsame, _, _, hnone, hshown⟩ := hcloses
      cases scene
      cases shown
      simp_all
    | cut => exact absurd rfl hcut

private theorem Closes.events_prefix {state : Turn} {result : Ending × Scene}
    (h : Closes host tree state result) : state.1.events.toList <+: result.2.events.toList := by
  obtain ⟨ending, scene⟩ := result
  have hsame (h : state.1.events = scene.events) :
      state.1.events.toList <+: scene.events.toList :=
    ⟨[], by rw [List.append_nil, h]⟩
  have hends (h : EndsIn host tree scene state) :
      state.1.events.toList <+: scene.events.toList := by
    obtain ⟨_, _, last, hmove, hevents⟩ := h
    have hkeeps := keeps_move host tree state.1
    rw [hmove] at hkeeps
    exact hsame (hkeeps.symm.trans hevents)
  cases ending with
  | done => exact hends h
  | returned => exact hends h
  | ended => exact hends h
  | waiting offered => exact hsame h.2.2.2.2
  | cut => exact hsame h.1

theorem events_prefix_evaluate (htree : tree.Linked) (hopens : Opens tree cursor siblings)
    {last : Playback} {rest : List Nat} (h : Driven host tree { cursor } picks last rest) :
    ∃ fuel, last.events.toList <+:
      (tree.evaluate host fuel siblings { picks }).2.events.toList := by
  obtain ⟨count, hcount⟩ := turns_of_driven h
  obtain ⟨more, final, hmore, hcloses, hcut⟩ := turns_of_evaluate host picks htree hopens count
  refine ⟨count, .trans ?_ hcloses.events_prefix⟩
  by_cases hle : count ≤ more
  · obtain ⟨left, rfl⟩ := Nat.exists_eq_add_of_le hle
    exact events_prefix_turns (turns_of_turns_add hcount hmore)
  · have hne : (tree.evaluate host count siblings { picks }).1 ≠ .cut := fun heq => hle (hcut heq)
    obtain ⟨left, rfl, _⟩ := turns_of_turn?_none hmore (hcloses.turn?_eq_none hne) hcount
    omega

/-- Evaluation shows nothing that a session does not, be it in a step that never returns. -/
theorem exists_events_eq_evaluate (htree : tree.Linked) (hopens : Opens tree cursor siblings)
    (fuel : Nat) :
    ∃ last rest moves, Driven host tree { cursor } picks last rest ∧
      (last.perform host tree (.step moves)).events =
        (tree.evaluate host fuel siblings { picks }).2.events := by
  obtain ⟨count, ⟨state, left⟩, hcount, hcloses, _⟩ :=
    turns_of_evaluate host picks htree hopens fuel
  obtain ⟨playback, moves, hdriven, hahead⟩ := driven_of_turns hcount
  revert hcloses
  generalize tree.evaluate host fuel siblings { picks } = result
  obtain ⟨ending, scene⟩ := result
  intro hcloses
  have hends (h : EndsIn host tree scene (state, left)) : ∃ last rest moves,
      Driven host tree { cursor } picks last rest ∧
        (last.perform host tree (.step moves)).events = scene.events := by
    obtain ⟨hidle, _, last, hmove, hevents⟩ := h
    refine ⟨playback, left, moves + 1, hdriven, ?_⟩
    rw [perform_step_of_step (hahead.step_of_over hidle hmove), hevents]
  cases ending with
  | done => exact hends hcloses
  | returned => exact hends hcloses
  | ended => exact hends hcloses
  | waiting offered =>
    refine ⟨playback, left, moves, hdriven, ?_⟩
    rw [hahead.perform_eq]
    exact hcloses.2.2.2.2
  | cut =>
    refine ⟨playback, left, moves, hdriven, ?_⟩
    rw [hahead.perform_eq]
    exact hcloses.1

end Dialogue.Playback
