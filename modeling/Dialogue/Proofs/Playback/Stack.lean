import Mathlib.Data.List.Chain
import Mathlib.Data.List.TakeWhile
import Dialogue.Proofs.Parse.Arena
import Dialogue.Proofs.Playback.Sessions

/-! The stack of a cursor. Each open block was entered from the one below it, and what led there,
be it a jump, a command or one of a run of choices, is what the lower block has passed last. -/
namespace Dialogue

def Frame.passed (frame : Frame) (tree : Tree) (start : Nat) : List NodeId :=
  ((tree.children frame.node).take frame.next).drop start

/-- How a block is entered from the frame below it. -/
inductive Frame.Entered (tree : Tree) (lower : Frame) (id : NodeId) : Prop
  | jump {index : Nat} {child : NodeId} {span : Span} {key : String}
      (hnext : lower.next = index + 1) (hchild : (tree.children lower.node)[index]? = some child)
      (hjump : tree.get? child = some ⟨span, .leaf (.jump key (some id))⟩) (hne : id ≠ Tree.root)
      (hsection : tree.label? id = some (.block (.scope (some key)) []))
      (hfind : tree.find? key = some id)
  | command {index : Nat} {text : String} (hnext : lower.next = index + 1)
      (hchild : (tree.children lower.node)[index]? = some id)
      (hcommand : tree.label? id = some (.block (.command text) []))
      (hbody : tree.children id ≠ [])
  | choice {index : Nat} (hlt : index < lower.next)
      (hchild : (tree.children lower.node)[index]? = some id)
      (hchoice : tree.isChoice id = true)
      (hchoices : ∀ other ∈ lower.passed tree index, tree.isChoice other = true)

structure Tree.Stack (tree : Tree) (base : NodeId) (frames : List Frame) : Prop where
  within : ∀ frame ∈ frames, tree.Within Tree.root frame.node
  block : ∀ frame ∈ frames, tree.isBlock frame.node = true
  next_le : ∀ frame ∈ frames, frame.next ≤ (tree.children frame.node).length
  base : ∀ frame, frames.getLast? = some frame → frame.node = base
  entered : frames.IsChain fun upper lower => lower.Entered tree upper.node

/-- A cursor between two calls. What waits was offered from a run of choices that the
innermost block has just passed. -/
structure Cursor.Stacked (tree : Tree) (base : NodeId) (cursor : Cursor) : Prop where
  stack : tree.Stack base cursor.frames
  finished : cursor.frames = [] → cursor.finished = true
  pending : cursor.pending ≠ [] → ∃ top below start, cursor.frames = top :: below ∧
    cursor.pending.Sublist (top.passed tree start) ∧
    ∀ id ∈ top.passed tree start, tree.isChoice id = true
  sorted : cursor.pending.Pairwise fun id next => tree.lineOf id < tree.lineOf next

/-- The cursors that calls lead to, and what their playback began with. A call may bring
another host, and it may follow on any events. -/
inductive Cursor.Reached (tree : Tree) : NodeId → Cursor → Prop
  | new : Reached tree Tree.root .new
  | atScope {key : String} {id : NodeId} {cursor : Cursor} (hfind : tree.find? key = some id)
      (hcursor : Cursor.atScope tree key = .ok cursor) : Reached tree id cursor
  | step {base : NodeId} {playback next : Playback} {host : Host} {moves : Nat}
      {result : Except Misuse Bool} (h : Reached tree base playback.cursor)
      (hstep : playback.step host tree moves = some (result, next)) :
      Reached tree base next.cursor
  | choose {base : NodeId} {cursor next : Cursor} {index : Nat} (h : Reached tree base cursor)
      (hchoose : cursor.choose index = .ok next) : Reached tree base next

/-- Names lead to the sections that have them, and jumps where their names lead. Siblings stand
in the order of their lines. -/
structure Tree.Registered (tree : Tree) : Prop where
  root : tree.isBlock Tree.root = true
  within : ∀ key id, tree.find? key = some id → tree.Within Tree.root id
  names : ∀ key id, tree.find? key = some id →
    id ≠ Tree.root ∧ tree.label? id = some (.block (.scope (some key)) [])
  targets : ∀ id span key target,
    tree.get? id = some ⟨span, .leaf (.jump key (some target))⟩ → tree.find? key = some target
  sorted : ∀ id, (tree.children id).Pairwise fun child next => tree.lineOf child < tree.lineOf next

variable {host : Host} {tree : Tree} {base id : NodeId} {frame : Frame} {below frames : List Frame}

private theorem Tree.isBlock_of_isChoice (h : tree.isChoice id = true) :
    tree.isBlock id = true := by
  rw [isChoice_eq] at h
  obtain ⟨label, hlabel, hchoice⟩ := (Option.any_eq_true _ _).mp h
  rw [isBlock, hlabel]
  cases label with
  | block => rfl
  | leaf => contradiction

namespace Frame

private theorem next_lt_of_child? (h : frame.child? tree = some id) :
    frame.next < (tree.children frame.node).length :=
  (List.getElem?_eq_some_iff.mp h).1

private theorem passed_sublist {start : Nat} :
    (frame.passed tree start).Sublist (tree.children frame.node) :=
  .trans (List.drop_sublist _ _) (List.take_sublist _ _)

theorem passed_skip_choices (frame : Frame) (tree : Tree) :
    (frame.skip (frame.choices tree).length).passed tree frame.next = frame.choices tree := by
  have hprefix : frame.choices tree <+: (tree.children frame.node).drop frame.next :=
    List.takeWhile_prefix _
  rw [passed, skip, List.drop_take, Nat.add_sub_cancel_left]
  exact (List.prefix_iff_eq_take.mp hprefix).symm

private theorem next_add_choices_le (h : frame.next ≤ (tree.children frame.node).length) :
    frame.next + (frame.choices tree).length ≤ (tree.children frame.node).length := by
  have hle := (List.takeWhile_prefix (p := tree.isChoice)
    (l := (tree.children frame.node).drop frame.next)).length_le
  rw [List.length_drop] at hle
  exact Nat.add_le_of_le_sub' h hle

theorem entered_of_mem_passed {start : Nat} (hid : id ∈ frame.passed tree start)
    (hchoices : ∀ other ∈ frame.passed tree start, tree.isChoice other = true) :
    frame.Entered tree id := by
  obtain ⟨offset, hoffset⟩ := List.mem_iff_getElem?.mp hid
  rw [passed, List.getElem?_drop, List.getElem?_take] at hoffset
  obtain ⟨hlt, hchild⟩ := Option.ite_none_right_eq_some.mp hoffset
  refine .choice hlt hchild (hchoices id hid) fun other hother => hchoices other ?_
  rw [passed, ← List.drop_drop] at hother
  exact List.mem_of_mem_drop hother

private theorem Entered.within (h : frame.Entered tree id) (htree : tree.Registered)
    (hframe : tree.Within Tree.root frame.node) : tree.Within Tree.root id := by
  cases h with
  | jump _ _ _ _ _ hfind => exact htree.within _ id hfind
  | command _ hchild => exact .child hframe (List.mem_of_getElem? hchild)
  | choice _ hchild => exact .child hframe (List.mem_of_getElem? hchild)

private theorem Entered.isBlock (h : frame.Entered tree id) : tree.isBlock id = true := by
  cases h with
  | jump _ _ _ _ hsection => rw [Tree.isBlock, hsection]; rfl
  | command _ _ hcommand => rw [Tree.isBlock, hcommand]; rfl
  | choice _ _ hchoice => exact Tree.isBlock_of_isChoice hchoice

end Frame

namespace Tree.Stack

private theorem singleton (hwithin : tree.Within root base) (hblock : tree.isBlock base = true) :
    tree.Stack base [.start base] := by
  constructor
  · exact List.forall_mem_singleton.mpr hwithin
  · exact List.forall_mem_singleton.mpr hblock
  · exact List.forall_mem_singleton.mpr (Nat.zero_le _)
  · intro frame hframe
    obtain rfl := Option.some.inj hframe
    rfl
  · exact .singleton _

theorem tail (h : tree.Stack base (frame :: below)) : tree.Stack base below := by
  constructor
  · exact (List.forall_mem_cons.mp h.within).2
  · exact (List.forall_mem_cons.mp h.block).2
  · exact (List.forall_mem_cons.mp h.next_le).2
  · intro last hlast
    refine h.base last ?_
    rw [List.getLast?_cons, hlast, Option.getD_some]
  · exact h.entered.tail

theorem skip (h : tree.Stack base (frame :: below)) {count : Nat}
    (hle : frame.next + count ≤ (tree.children frame.node).length) :
    tree.Stack base (frame.skip count :: below) := by
  constructor
  · exact List.forall_mem_cons.mpr (List.forall_mem_cons.mp h.within)
  · exact List.forall_mem_cons.mpr (List.forall_mem_cons.mp h.block)
  · exact List.forall_mem_cons.mpr ⟨hle, (List.forall_mem_cons.mp h.next_le).2⟩
  · intro last hlast
    cases below with
    | nil =>
      obtain rfl := Option.some.inj hlast
      exact h.base frame rfl
    | cons => exact h.base last hlast
  -- How a block was entered does not depend on how far it is played.
  · cases below with
    | nil => exact .singleton _
    | cons =>
      obtain ⟨hentered, hbelow⟩ := List.isChain_cons_cons.mp h.entered
      exact List.isChain_cons_cons.mpr ⟨hentered, hbelow⟩

theorem enter (h : tree.Stack base (frame :: below)) (htree : tree.Registered)
    (hentered : frame.Entered tree id) : tree.Stack base (.start id :: frame :: below) := by
  constructor
  · exact List.forall_mem_cons.mpr
      ⟨hentered.within htree (h.within frame List.mem_cons_self), h.within⟩
  · exact List.forall_mem_cons.mpr ⟨hentered.isBlock, h.block⟩
  · exact List.forall_mem_cons.mpr ⟨Nat.zero_le _, h.next_le⟩
  · exact h.base
  · exact List.isChain_cons_cons.mpr ⟨hentered, h.entered⟩

end Tree.Stack

theorem Cursor.Stacked.of_idle {cursor : Cursor} (h : tree.Stack base cursor.frames)
    (hfinished : cursor.frames = [] → cursor.finished = true) (hidle : cursor.pending = []) :
    cursor.Stacked tree base :=
  ⟨h, hfinished, fun hwait => absurd hidle hwait, hidle ▸ .nil⟩

def Move.Stacked (tree : Tree) (base : NodeId) : Move → Prop
  | .on next => tree.Stack base next.cursor.frames ∧ next.cursor.pending = []
  | .paused next => next.cursor.Stacked tree base
  | .over next => next.cursor.Stacked tree base

namespace Playback

variable {playback next : Playback}

theorem stacked_finish (playback : Playback) (h : tree.Stack base playback.cursor.frames)
    (hidle : playback.cursor.pending = []) : playback.finish.cursor.Stacked tree base :=
  .of_idle h (fun _ => rfl) hidle

/-- A return leaves blocks without passing anything in those that stay open. -/
theorem stacked_leaveScope (h : tree.Stack base frames) (hidle : playback.cursor.pending = []) :
    (playback.leaveScope tree frames).Stacked tree base := by
  induction frames with
  | nil => exact stacked_finish (playback.withFrames []) h hidle
  | cons frame below ih =>
    rw [leaveScope]
    split
    · exact ⟨h.tail, hidle⟩
    · exact ih h.tail

theorem stacked_offer (htree : tree.Registered) {choices : List NodeId} {start : Nat}
    (hframes : playback.cursor.frames = frame :: below) (h : tree.Stack base (frame :: below))
    (hidle : playback.cursor.pending = []) (hpassed : frame.passed tree start = choices)
    (hchoices : ∀ id ∈ choices, tree.isChoice id = true) :
    (playback.offer host tree choices).Stacked tree base := by
  have hkept := sift_sublist host tree playback choices
  have hcursor := (sift_keeps host tree playback choices).2
  unfold offer
  split
  next sifted hsift =>
    rw [hsift] at hcursor
    rw [Move.Stacked, hcursor, hframes]
    exact ⟨h, hidle⟩
  next kept sifted _ hsift =>
    rw [hsift] at hkept hcursor
    have hsame : sifted.cursor.frames = frame :: below := by rw [hcursor, hframes]
    refine ⟨hsame ▸ h, fun hnil => ?_, fun _ => ?_, ?_⟩
    · exact absurd (hsame.symm.trans hnil) (List.cons_ne_nil frame below)
    · exact ⟨frame, below, start, hsame, hpassed ▸ hkept, hpassed ▸ hchoices⟩
    · rw [← hpassed] at hkept
      exact (htree.sorted frame.node).sublist (hkept.trans frame.passed_sublist)

theorem stacked_play (htree : tree.Registered) (hchild : frame.child? tree = some id)
    (hframes : playback.cursor.frames = frame :: below)
    (h : tree.Stack base (frame :: below)) (hidle : playback.cursor.pending = []) :
    (playback.play host tree frame below id).Stacked tree base := by
  have hlt := Frame.next_lt_of_child? hchild
  have hpassed : tree.Stack base (frame.skip 1 :: below) := h.skip hlt
  unfold play
  split
  next => exact ⟨hpassed, hidle⟩
  next node hnode =>
    obtain ⟨span, content⟩ := node
    split
    next => exact stacked_finish (playback.note _) (hframes ▸ h) hidle
    next text body hcontent =>
      obtain rfl : content = _ := hcontent
      dsimp only [evaluate]
      split
      next hplayed =>
        have hcommand : tree.label? id = some (.block (.command text) []) := by
          rw [Tree.label?_eq, hnode]
          rfl
        refine ⟨hpassed.enter htree (.command rfl hchild hcommand ?_), hidle⟩
        rw [Tree.children, hnode]
        rintro (rfl : body = [])
        rw [List.isEmpty_nil, Bool.not_true, Bool.and_false] at hplayed
        contradiction
      next => exact ⟨hpassed, hidle⟩
    next =>
      have hbehind := h.skip (Frame.next_add_choices_le (Nat.le_of_lt hlt))
      exact stacked_offer htree rfl hbehind hidle (frame.passed_skip_choices tree) fun other hother =>
        List.mem_takeWhile_imp hother
    next => exact Cursor.Stacked.of_idle hpassed (absurd · (List.cons_ne_nil _ _)) hidle
    next => exact ⟨hpassed, hidle⟩
    next key target hcontent =>
      obtain rfl : content = _ := hcontent
      have hfind := htree.targets id span key target hnode
      obtain ⟨hne, hsection⟩ := htree.names key target hfind
      exact ⟨hpassed.enter htree (.jump rfl hchild hnode hne hsection hfind), hidle⟩
    next => exact ⟨hpassed, hidle⟩
    next => exact stacked_leaveScope hpassed hidle

private theorem stacked_move (htree : tree.Registered) (h : tree.Stack base playback.cursor.frames)
    (hidle : playback.cursor.pending = []) : (playback.move host tree).Stacked tree base := by
  unfold move
  split
  next => exact stacked_finish (playback.note _) h hidle
  next frame below hframes =>
    have hstack : tree.Stack base (frame :: below) := hframes ▸ h
    split
    next id hchild => exact stacked_play htree hchild hframes hstack hidle
    next =>
      split
      · exact stacked_finish (playback.note _) h hidle
      · exact ⟨hstack.tail, hidle⟩

/-- However many moves it makes, a run comes to rest with a stack. -/
theorem stacked_run (htree : tree.Registered) {moves : Nat} {more : Bool}
    (h : tree.Stack base playback.cursor.frames) (hidle : playback.cursor.pending = [])
    (hrun : playback.run host tree moves = some (more, next)) : next.cursor.Stacked tree base := by
  induction moves generalizing playback with
  | zero => exact nomatch hrun
  | succ moves ih =>
    have hmove : (playback.move host tree).Stacked tree base := stacked_move htree h hidle
    rw [run] at hrun
    split at hrun
    next heq =>
      rw [heq] at hmove
      exact ih hmove.1 hmove.2 hrun
    next heq =>
      rw [heq] at hmove
      obtain ⟨_, rfl⟩ := Prod.mk.inj (Option.some.inj hrun)
      exact hmove
    next heq =>
      rw [heq] at hmove
      obtain ⟨_, rfl⟩ := Prod.mk.inj (Option.some.inj hrun)
      exact hmove

private theorem stacked_step (htree : tree.Registered) {moves : Nat} {result : Except Misuse Bool}
    (h : playback.cursor.Stacked tree base)
    (hstep : playback.step host tree moves = some (result, next)) :
    next.cursor.Stacked tree base := by
  cases result with
  | error misuse =>
    unfold step at hstep
    split at hstep
    next =>
      obtain ⟨_, rfl⟩ := Prod.mk.inj (Option.some.inj hstep)
      exact h
    next => simp at hstep
  | ok more =>
    obtain ⟨hidle, hrun⟩ := run_of_step hstep
    exact stacked_run htree h.stack (isWaiting_eq_false_iff.mp hidle) hrun

end Playback

namespace Cursor

variable {cursor next : Cursor}

theorem Stacked.choose (h : cursor.Stacked tree base) (htree : tree.Registered) {index : Nat}
    (hchoose : cursor.choose index = .ok next) : next.Stacked tree base := by
  unfold Cursor.choose at hchoose
  split at hchoose
  next id hid =>
    obtain rfl := Except.ok.inj hchoose
    have hmem := List.mem_of_getElem? hid
    obtain ⟨top, below, start, hframes, hpending, hchoices⟩ := h.pending (List.ne_nil_of_mem hmem)
    have hentered := Frame.entered_of_mem_passed (hpending.subset hmem) hchoices
    refine .of_idle ?_ nofun rfl
    have hstack := h.stack
    rw [hframes] at hstack
    rw [enter, hframes]
    exact hstack.enter htree hentered
  next => contradiction

private theorem Stacked.start (hwithin : tree.Within Tree.root base)
    (hblock : tree.isBlock base = true) :
    Cursor.Stacked tree base { frames := [.start base] } :=
  .of_idle (.singleton hwithin hblock) nofun rfl

private theorem Reached.stacked (h : Reached tree base cursor) (htree : tree.Registered) :
    cursor.Stacked tree base := by
  induction h with
  | new => exact .start .self htree.root
  | @atScope key id cursor hfind hcursor =>
    obtain rfl := Cursor.eq_of_atScope hfind hcursor
    refine .start (htree.within key id hfind) ?_
    rw [Tree.isBlock, (htree.names key id hfind).2]
    rfl
  | step _ hstep ih => exact Playback.stacked_step htree ih hstep
  | choose _ hchoose ih => exact ih.choose htree hchoose

end Cursor

section Parse

variable {options : Options} {checker : Checker} {lines : List String} {script : Script}

private theorem registered_of_ok (h : (parseLines options checker lines).result = .ok script) :
    script.tree.Registered := by
  obtain ⟨reading, hread, hsettled⟩ := settled_of_ok h
  have hpruned := hsettled.pruned
  constructor
  · rw [Tree.isBlock, hpruned.label?, Sketch.labelAt?, Tree.root, hpruned.regular.root]
    rfl
  · intro key id hfind
    obtain ⟨_, hlabel⟩ := hpruned.label?_of_find? hfind
    exact (hsettled.walkable hread).sections id (Tree.lt_size_of_label? hlabel)
      (hpruned.isScope_of_find? hfind)
  · intro key id hfind
    exact hpruned.label?_of_find? hfind
  · intro id span key target hnode
    exact hpruned.find?_eq_of_jump hnode
  · intro id
    have hlines (child : NodeId) : script.tree.lineOf child =
        (Progress.read options checker lines).linked.lineOf child :=
      (hpruned.lineOf child).trans (hsettled.drawn.lineOf child).symm
    simp only [hlines]
    rw [hsettled.tree, Tree.children_detach]
    exact (((hsettled.arranged hread).sorted id).imp And.right).filter _

/-- Whatever is called on a cursor of the script, its stack tells how it got there. -/
theorem stacked_of_ok (h : (parseLines options checker lines).result = .ok script)
    {base : NodeId} {cursor : Cursor} (hreached : cursor.Reached script.tree base) :
    cursor.Stacked script.tree base :=
  hreached.stacked (registered_of_ok h)

end Parse

/-- A jump leads to a section, a command into its body, and a choice was picked there. Of the two
choices within it the first is not offered. -/
theorem stacked_of_nested_choices :
    let lines := ["-> hall", "= hall", "# go", "\t* in", "\t\t* left #no#", "\t\t* right"]
    ∃ (script : Script) (cursor : Cursor),
      (parseLines {} ⟨fun _ _ => none⟩ lines).result = .ok script ∧
      cursor.Reached script.tree Tree.root ∧ cursor.Stacked script.tree Tree.root ∧
      cursor.frames = [⟨4, 2⟩, ⟨3, 1⟩, ⟨2, 1⟩, ⟨Tree.root, 1⟩] ∧ cursor.pending = [6] := by
  intro lines
  let host : Host := ⟨fun _ text _ => text != "no"⟩
  let step (tree : Tree) (cursor : Cursor) : Option Cursor :=
    (Playback.step host tree 9 { cursor }).map (·.2.cursor)
  have hplayed : (parseLines {} ⟨fun _ _ => none⟩ lines).result.toOption.map (fun script =>
      (step script.tree .new).map fun waiting =>
        (waiting.choose 0).toOption.map (step script.tree)) =
      some (some (some (some ⟨[⟨4, 2⟩, ⟨3, 1⟩, ⟨2, 1⟩, ⟨Tree.root, 1⟩], [6], false⟩))) := by
    decide +kernel
  obtain ⟨script, hparse, hplay⟩ := exists_ok_of_map_toOption hplayed
  have hstep {cursor next : Cursor} (hreached : cursor.Reached script.tree Tree.root)
      (h : step script.tree cursor = some next) : next.Reached script.tree Tree.root := by
    obtain ⟨⟨result, playback⟩, hresult, rfl⟩ := Option.map_eq_some_iff.mp h
    exact .step hreached hresult
  obtain ⟨waiting, hwaiting, hrest⟩ := Option.map_eq_some_iff.mp hplay
  obtain ⟨picked, hpick, hlast⟩ := exists_ok_of_map_toOption hrest
  have hreached := hstep (.choose (hstep .new hwaiting) hpick) hlast
  exact ⟨script, _, hparse, hreached, stacked_of_ok hparse hreached, rfl, rfl⟩

end Dialogue
