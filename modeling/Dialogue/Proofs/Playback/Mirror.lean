import Dialogue.Proofs.Playback.Calls
import Dialogue.Proofs.Tree.Pairing

/-! Mirrored playbacks. Two trees with paired nodes are played alike, move by move, as long as the
siblings that come next begin alike on both sides. -/
namespace Dialogue

structure Frame.Mirrors (pairing : Pairing) (first second : Tree) (frame twin : Frame) : Prop where
  isScope : first.isScope frame.node = second.isScope twin.node
  rest : pairing.rest ((first.children frame.node).drop frame.next)
    ((second.children twin.node).drop twin.next)

/-- Playbacks that have shown the same and stand at paired places. -/
structure Playback.Mirrors (pairing : Pairing) (first second : Tree) (playback twin : Playback) :
    Prop where
  events : playback.events = twin.events
  frames : List.Forall₂ (Frame.Mirrors pairing first second) playback.cursor.frames
    twin.cursor.frames
  pending : List.Forall₂ pairing.node playback.cursor.pending twin.cursor.pending
  finished : playback.cursor.finished = twin.cursor.finished

inductive Move.Mirrors (pairing : Pairing) (first second : Tree) : Move → Move → Prop
  | on {playback twin : Playback} (h : playback.Mirrors pairing first second twin) :
      Mirrors pairing first second (.on playback) (.on twin)
  | paused {playback twin : Playback} (h : playback.Mirrors pairing first second twin) :
      Mirrors pairing first second (.paused playback) (.paused twin)
  | over {playback twin : Playback} (h : playback.Mirrors pairing first second twin) :
      Mirrors pairing first second (.over playback) (.over twin)

/-- The next siblings on both sides begin alike, if any are left. -/
def Playback.Ready (pairing : Pairing) (first second : Tree) (playback twin : Playback) : Prop :=
  ∀ frame ∈ playback.cursor.frames.head?, ∀ copy ∈ twin.cursor.frames.head?,
    pairing.Ready first second ((first.children frame.node).drop frame.next)
      ((second.children copy.node).drop copy.next)

variable {pairing : Pairing} {first second : Tree}

namespace Frame

variable {frame twin : Frame} {id other : NodeId}

theorem mirrors_start (htree : first.Paired second pairing) (h : pairing.node id other) :
    (start id).Mirrors pairing first second (start other) :=
  ⟨htree.isScope_eq h, htree.children h⟩

private theorem Mirrors.skip (h : frame.Mirrors pairing first second twin) {count more : Nat}
    (hrest : pairing.rest (((first.children frame.node).drop frame.next).drop count)
      (((second.children twin.node).drop twin.next).drop more)) :
    (frame.skip count).Mirrors pairing first second (twin.skip more) := by
  rw [List.drop_drop, List.drop_drop] at hrest
  exact ⟨h.isScope, hrest⟩

theorem child?_eq_head? (frame : Frame) (tree : Tree) :
    frame.child? tree = ((tree.children frame.node).drop frame.next).head? := by
  rw [List.head?_drop, child?]

end Frame

namespace Playback

variable {playback twin : Playback} {frame copy : Frame} {below under frames others : List Frame}
  {ids twins : List NodeId} {id other : NodeId}

namespace Mirrors

theorem note (h : playback.Mirrors pairing first second twin) (notice remark : Notice) :
    (playback.note notice).Mirrors pairing first second (twin.note remark) :=
  ⟨h.events, h.frames, h.pending, h.finished⟩

theorem emit (h : playback.Mirrors pairing first second twin) (event : Event) :
    (playback.emit event).Mirrors pairing first second (twin.emit event) :=
  ⟨congrArg (Array.push · event) h.events, h.frames, h.pending, h.finished⟩

theorem withFrames (h : playback.Mirrors pairing first second twin)
    (hframes : List.Forall₂ (Frame.Mirrors pairing first second) frames others) :
    (playback.withFrames frames).Mirrors pairing first second (twin.withFrames others) :=
  ⟨h.events, hframes, h.pending, h.finished⟩

theorem enter (h : playback.Mirrors pairing first second twin)
    (htree : first.Paired second pairing) (hnode : pairing.node id other) :
    (playback.enter id).Mirrors pairing first second (twin.enter other) :=
  ⟨h.events, .cons (Frame.mirrors_start htree hnode) h.frames, h.pending, h.finished⟩

theorem finish (h : playback.Mirrors pairing first second twin) :
    playback.finish.Mirrors pairing first second twin.finish :=
  ⟨h.events, h.frames, h.pending, rfl⟩

theorem await (h : playback.Mirrors pairing first second twin)
    (hpending : List.Forall₂ pairing.node ids twins) :
    Mirrors pairing first second
      { playback with cursor := { playback.cursor with pending := ids } }
      { twin with cursor := { twin.cursor with pending := twins } } :=
  ⟨h.events, h.frames, hpending, h.finished⟩

theorem isWaiting_eq (h : playback.Mirrors pairing first second twin) :
    playback.cursor.isWaiting = twin.cursor.isWaiting := by
  have hpending := h.pending
  rw [Cursor.isWaiting, Cursor.isWaiting]
  generalize playback.cursor.pending = ids at hpending ⊢
  generalize twin.cursor.pending = twins at hpending ⊢
  cases hpending <;> rfl

theorem evaluate (h : playback.Mirrors pairing first second twin) (host : Host) (text : String)
    (hasBody : Bool) :
    (playback.evaluate host text hasBody).1 = (twin.evaluate host text hasBody).1 ∧
      (playback.evaluate host text hasBody).2.Mirrors pairing first second
        (twin.evaluate host text hasBody).2 := by
  rw [Playback.evaluate, Playback.evaluate, h.events]
  exact ⟨rfl, h.emit _⟩

theorem choose (h : playback.Mirrors pairing first second twin)
    (htree : first.Paired second pairing) (index : Nat) :
    (∃ misuse, playback.choose index = .error misuse ∧ twin.choose index = .error misuse) ∨
      ∃ next after, playback.choose index = .ok next ∧ twin.choose index = .ok after ∧
        next.Mirrors pairing first second after := by
  have hlength := h.pending.length_eq
  unfold Playback.choose Cursor.choose
  by_cases hin : index < playback.cursor.pending.length
  · have hnode := h.pending.get hin (hlength ▸ hin)
    rw [List.getElem?_eq_getElem hin, List.getElem?_eq_getElem (hlength ▸ hin)]
    exact .inr ⟨_, _, rfl, rfl, ((h.enter htree hnode).await .nil).note ..⟩
  · rw [List.getElem?_eq_none (Nat.le_of_not_lt hin),
      List.getElem?_eq_none (Nat.le_of_not_lt (hlength ▸ hin)), h.isWaiting_eq, hlength]
    exact .inl ⟨_, rfl, rfl⟩

end Mirrors

section Choices

variable (htree : first.Paired second pairing)

include htree

private theorem condition?_eq (h : pairing.node id other) :
    (first.get? id).bind Node.condition? = (second.get? other).bind Node.condition? := by
  rcases htree.cases_node h with ⟨hone, htwo⟩ | ⟨node, image, hone, htwo, hsame⟩
  · rw [hone, htwo]
  · rw [hone, htwo]
    exact hsame.condition?_eq

private theorem offer?_eq (h : pairing.node id other) :
    (first.get? id).bind Node.offer? = (second.get? other).bind Node.offer? := by
  rcases htree.cases_node h with ⟨hone, htwo⟩ | ⟨⟨_, content⟩, ⟨_, image⟩, hone, htwo, hsame⟩
  · rw [hone, htwo]
  · rw [hone, htwo]
    dsimp only at hsame
    cases hsame with
    | block block => cases block <;> rfl
    | _ => rfl

theorem Mirrors.sift (h : playback.Mirrors pairing first second twin) (host : Host)
    (hids : List.Forall₂ pairing.node ids twins) :
    List.Forall₂ pairing.node (playback.sift host first ids).1
        (twin.sift host second twins).1 ∧
      (playback.sift host first ids).2.Mirrors pairing first second
        (twin.sift host second twins).2 := by
  induction hids generalizing playback twin with
  | nil => exact ⟨.nil, h⟩
  | @cons id other ids twins hhead _ ih =>
    simp only [Playback.sift, condition?_eq htree hhead]
    cases (second.get? other).bind Node.condition? with
    | none =>
      obtain ⟨hkept, hnext⟩ := ih h
      exact ⟨.cons hhead hkept, hnext⟩
    | some condition =>
      obtain ⟨hanswer, hasked⟩ := h.evaluate host condition true
      obtain ⟨hkept, hnext⟩ := ih hasked
      dsimp only
      rw [hanswer]
      refine ⟨?_, hnext⟩
      split
      · exact .cons hhead hkept
      · exact hkept

private theorem filterMap_offer? (h : List.Forall₂ pairing.node ids twins) :
    (ids.filterMap fun id => (first.get? id).bind Node.offer?) =
      twins.filterMap fun id => (second.get? id).bind Node.offer? := by
  induction h with
  | nil => rfl
  | cons hhead _ ih => rw [List.filterMap_cons, List.filterMap_cons, offer?_eq htree hhead, ih]

private theorem mirrors_offer (h : playback.Mirrors pairing first second twin) (host : Host)
    (hids : List.Forall₂ pairing.node ids twins) :
    (playback.offer host first ids).Mirrors pairing first second
      (twin.offer host second twins) := by
  obtain ⟨hkept, hnext⟩ := h.sift htree host hids
  have hoffers := filterMap_offer? htree hkept
  unfold offer
  generalize playback.sift host first ids = sifted at hkept hnext hoffers ⊢
  generalize twin.sift host second twins = other at hkept hnext hoffers ⊢
  obtain ⟨kept, next⟩ := sifted
  obtain ⟨copies, after⟩ := other
  dsimp only at hkept hnext hoffers ⊢
  cases hkept with
  | nil => exact .on hnext
  | cons hhead hrest =>
    simp only [hoffers]
    exact .paused ((hnext.await (.cons hhead hrest)).emit _)

end Choices

private theorem mirrors_leaveScope (h : playback.Mirrors pairing first second twin)
    (hframes : List.Forall₂ (Frame.Mirrors pairing first second) frames others) :
    (playback.leaveScope first frames).Mirrors pairing first second
      (twin.leaveScope second others) := by
  induction hframes with
  | nil => exact .over (h.withFrames .nil).finish
  | @cons frame other below under hframe hbelow ih =>
    rw [leaveScope, leaveScope, hframe.isScope]
    split
    · exact .on ((h.withFrames hbelow).note ..)
    · exact ih

/-- Playback does not go past a section. -/
theorem play_of_isScope {host : Host} {tree : Tree} (h : tree.isScope id = true) :
    ∃ notice, playback.play host tree frame below id = .over (playback.note notice).finish := by
  obtain ⟨⟨span, content⟩, hnode, hscope⟩ := (Option.any_eq_true _ _).mp h
  cases content with
  | leaf => contradiction
  | block block children =>
    cases block with
    | scope key => exact ⟨.reachedScope span.line, by rw [play, hnode]⟩
    | _ => contradiction

private theorem mirrors_play (htree : first.Paired second pairing)
    (h : playback.Mirrors pairing first second twin) (host : Host)
    (hframe : frame.Mirrors pairing first second copy)
    (hbelow : List.Forall₂ (Frame.Mirrors pairing first second) below under)
    (hid : (first.children frame.node).drop frame.next = id :: ids)
    (hother : (second.children copy.node).drop copy.next = other :: twins)
    (hready : pairing.Ready first second (id :: ids) (other :: twins)) :
    (playback.play host first frame below id).Mirrors pairing first second
      (twin.play host second copy under other) := by
  cases hready with
  | halt hfirst hsecond =>
    obtain ⟨notice, hover⟩ := play_of_isScope hfirst
    obtain ⟨remark, hdone⟩ := play_of_isScope hsecond
    rw [hover, hdone]
    exact .over (h.note notice remark).finish
  | next hpaired hrest hchoices hbehind =>
    have hskipped : List.Forall₂ (Frame.Mirrors pairing first second) (frame.skip 1 :: below)
        (copy.skip 1 :: under) := by
      refine .cons (hframe.skip ?_) hbelow
      rw [hid, hother]
      exact hrest
    rcases htree.cases_node hpaired with ⟨hnode, himage⟩ | ⟨node, image, hnode, himage, hsame⟩
    · simp only [play, hnode, himage]
      exact .on (h.withFrames hskipped)
    · have hpassed : (playback.pass frame below node).Mirrors pairing first second
          (twin.pass copy under image) := (h.withFrames hskipped).note ..
      obtain ⟨span, content⟩ := node
      obtain ⟨start, found⟩ := image
      simp only [play, hnode, himage]
      dsimp only at hsame
      cases hsame with
      | @block block children others hchildren hempty =>
        cases block with
        | scope key => exact .over (h.note ..).finish
        | command text =>
          have hbody : children.isEmpty = others.isEmpty := by
            rw [Bool.eq_iff_iff, List.isEmpty_iff, List.isEmpty_iff]
            exact hempty rfl
          obtain ⟨hanswer, hasked⟩ := hpassed.evaluate host text (!others.isEmpty)
          simp only [hbody, hanswer]
          split
          · exact .on (hasked.enter htree hpaired)
          · exact .on hasked
        | choice text condition =>
          dsimp only [Frame.choices]
          rw [hid, hother]
          refine mirrors_offer htree (hpassed.withFrames (.cons (hframe.skip ?_) hbelow)) host
            hchoices
          rw [hid, hother]
          exact hbehind
      | jump key htarget =>
        cases htarget with
        | none => exact .on (hpassed.note ..)
        | some htarget => exact .on ((hpassed.note ..).enter htree htarget)
      | line text => exact .paused (hpassed.emit _)
      | comment text => exact .on hpassed
      | back => exact mirrors_leaveScope hpassed hpassed.frames

theorem mirrors_move (htree : first.Paired second pairing)
    (h : playback.Mirrors pairing first second twin) (host : Host)
    (hready : Ready pairing first second playback twin) :
    (playback.move host first).Mirrors pairing first second (twin.move host second) := by
  have hframes := h.frames
  unfold Ready at hready
  unfold move
  generalize playback.cursor.frames = frames at hframes hready ⊢
  generalize twin.cursor.frames = others at hframes hready ⊢
  cases hframes with
  | nil => exact .over (h.note ..).finish
  | @cons frame copy below under hframe hbelow =>
    have hnext := hready frame rfl copy rfl
    simp only [Frame.child?_eq_head?]
    generalize hids : (first.children frame.node).drop frame.next = ids at hnext ⊢
    generalize htwins : (second.children copy.node).drop copy.next = twins at hnext ⊢
    cases hnext with
    | done =>
      simp only [List.head?_nil, hframe.isScope]
      split
      · exact .over (h.note ..).finish
      · exact .on (h.withFrames hbelow)
    | halt hfirst hsecond =>
      exact mirrors_play htree h host hframe hbelow hids htwins (.halt hfirst hsecond)
    | next hnode hrest hchoices hbehind =>
      exact mirrors_play htree h host hframe hbelow hids htwins
        (.next hnode hrest hchoices hbehind)

end Playback

theorem Tree.Paired.start (h : first.Paired second pairing)
    (hroot : (Frame.start root).Mirrors pairing first second (.start root))
    (start : Option String) :
    (∃ misuse, Cursor.start first start = .error misuse ∧
        Cursor.start second start = .error misuse) ∨
      ∃ cursor other, Cursor.start first start = .ok cursor ∧
        Cursor.start second start = .ok other ∧
        Playback.Mirrors pairing first second { cursor } { cursor := other } := by
  have hplayed {frame twin : Frame} (hframe : frame.Mirrors pairing first second twin) :
      Playback.Mirrors pairing first second { cursor := { frames := [frame] } }
        { cursor := { frames := [twin] } } := ⟨rfl, .cons hframe .nil, .nil, rfl⟩
  cases start with
  | none => exact .inr ⟨_, _, rfl, rfl, hplayed hroot⟩
  | some key =>
    have hfind := h.find? key
    rw [Cursor.start, Cursor.start, Cursor.atScope, Cursor.atScope]
    generalize first.find? key = found at hfind ⊢
    generalize second.find? key = other at hfind ⊢
    cases hfind with
    | none => exact .inl ⟨_, rfl, rfl⟩
    | some hnode => exact .inr ⟨_, _, rfl, rfl, hplayed (Frame.mirrors_start h hnode)⟩

end Dialogue
