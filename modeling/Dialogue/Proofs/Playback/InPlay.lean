import Dialogue.Proofs.Playback.Sessions
import Dialogue.Proofs.Tree.Within

/-! Nodes in play. All that a host is shown or asked stems from the nodes that a playback is
about to touch, and these hang on the root. -/
namespace Dialogue

/-- The nodes that a playback is in, waits at, or touches with its next move. -/
inductive Playback.InPlay (tree : Tree) (playback : Playback) : NodeId → Prop
  | frame {frame : Frame} (hframe : frame ∈ playback.cursor.frames) :
      InPlay tree playback frame.node
  | pending {id : NodeId} (hid : id ∈ playback.cursor.pending) : InPlay tree playback id
  | next {frame : Frame} {below : List Frame} {id : NodeId}
      (hframes : playback.cursor.frames = frame :: below) (hchild : frame.child? tree = some id) :
      InPlay tree playback id
  | choice {frame : Frame} {below : List Frame} {id : NodeId}
      (hframes : playback.cursor.frames = frame :: below) (hid : id ∈ frame.choices tree) :
      InPlay tree playback id

/-- An event is about one of these nodes, or about several that are offered. A command has a
body if it has children, and a condition counts as having one. -/
def Event.Stems (tree : Tree) (nodes : NodeId → Prop) : Event → Prop
  | .line text => ∃ id span, nodes id ∧ tree.get? id = some ⟨span, .leaf (.line text)⟩
  | .evaluated text hasBody _ => ∃ id span, nodes id ∧
      ((∃ body, tree.get? id = some ⟨span, .block (.command text) body⟩ ∧ hasBody = !body.isEmpty) ∨
        ∃ label body, tree.get? id = some ⟨span, .block (.choice label (some text)) body⟩ ∧
          hasBody = true)
  | .offered offers => ∃ ids : List NodeId, (∀ id ∈ ids, nodes id) ∧
      offers = ids.filterMap fun id => (tree.get? id).bind Node.offer?

namespace Playback

variable {host : Host} {tree : Tree} {playback next : Playback}

structure Succeeds (tree : Tree) (playback next : Playback) : Prop where
  frames : ∀ frame ∈ next.cursor.frames, InPlay tree playback frame.node ∨
    ∃ id span key, InPlay tree playback id ∧
      tree.get? id = some ⟨span, .leaf (.jump key (some frame.node))⟩
  pending : ∀ id ∈ next.cursor.pending, InPlay tree playback id
  events : ∀ event ∈ next.events.toList, event ∈ playback.events.toList ∨
    event.Stems tree (InPlay tree playback)

private theorem Succeeds.refl : Succeeds tree playback playback :=
  ⟨fun _ h => .inl (.frame h), fun _ h => .pending h, fun _ h => .inl h⟩

theorem Succeeds.note (h : Succeeds tree playback next) (notice : Notice) :
    Succeeds tree playback (next.note notice) := ⟨h.frames, h.pending, h.events⟩

theorem Succeeds.finish (h : Succeeds tree playback next) : Succeeds tree playback next.finish :=
  ⟨h.frames, h.pending, h.events⟩

theorem Succeeds.emit (h : Succeeds tree playback next) {event : Event}
    (hevent : event.Stems tree (InPlay tree playback)) :
    Succeeds tree playback (next.emit event) := by
  refine ⟨h.frames, h.pending, fun other hother => ?_⟩
  rw [Playback.emit, Array.toList_push, List.mem_append, List.mem_singleton] at hother
  rcases hother with hold | rfl
  · exact h.events other hold
  · exact .inr hevent

theorem Succeeds.withFrames (h : Succeeds tree playback next) {frames : List Frame}
    (hframes : ∀ frame ∈ frames, InPlay tree playback frame.node) :
    Succeeds tree playback (next.withFrames frames) :=
  ⟨fun frame hframe => .inl (hframes frame hframe), h.pending, h.events⟩

private theorem Succeeds.enter (h : Succeeds tree playback next) {id : NodeId}
    (hid : InPlay tree playback id) : Succeeds tree playback (next.enter id) := by
  refine ⟨fun frame hframe => ?_, h.pending, h.events⟩
  rcases List.mem_cons.mp hframe with rfl | hold
  · exact .inl hid
  · exact h.frames frame hold

theorem Succeeds.jump (h : Succeeds tree playback next) {id target : NodeId} {span : Span}
    {key : String} (hid : InPlay tree playback id)
    (hnode : tree.get? id = some ⟨span, .leaf (.jump key (some target))⟩) :
    Succeeds tree playback (next.enter target) := by
  refine ⟨fun frame hframe => ?_, h.pending, h.events⟩
  rcases List.mem_cons.mp hframe with rfl | hold
  · exact .inr ⟨id, span, key, hid, hnode⟩
  · exact h.frames frame hold

theorem Succeeds.sift (h : Succeeds tree playback next) (host : Host) {choices : List NodeId}
    (hchoices : ∀ id ∈ choices, InPlay tree playback id) :
    Succeeds tree playback (next.sift host tree choices).2 ∧
      ∀ id ∈ (next.sift host tree choices).1, InPlay tree playback id := by
  induction choices generalizing next with
  | nil => exact ⟨h, fun _ hid => absurd hid List.not_mem_nil⟩
  | cons id rest ih =>
    have hid := hchoices id List.mem_cons_self
    have hrest (other : NodeId) (hother : other ∈ rest) := hchoices other (List.mem_cons_of_mem _ hother)
    simp only [Playback.sift]
    cases hcondition : (tree.get? id).bind Node.condition? with
    | none =>
      obtain ⟨hsifted, hkept⟩ := ih h hrest
      exact ⟨hsifted, List.forall_mem_cons.mpr ⟨hid, hkept⟩⟩
    | some condition =>
      have hstems (answer : Bool) :
          (Event.evaluated condition true answer).Stems tree (InPlay tree playback) := by
        obtain ⟨⟨span, content⟩, hnode, hfound⟩ := Option.bind_eq_some_iff.mp hcondition
        refine ⟨id, span, hid, .inr ?_⟩
        cases content with
        | leaf => contradiction
        | block block body =>
          cases block with
          | scope => contradiction
          | command => contradiction
          | choice label guard =>
            obtain rfl : guard = some condition := hfound
            exact ⟨label, body, hnode, rfl⟩
      obtain ⟨hsifted, hkept⟩ := ih (h.emit (hstems (host.answer next.events condition true))) hrest
      have hkeeps (answer : Bool) (kept : List NodeId)
          (h : ∀ other ∈ kept, InPlay tree playback other) :
          ∀ other ∈ if answer then id :: kept else kept, InPlay tree playback other := by
        cases answer with
        | false => exact h
        | true => exact List.forall_mem_cons.mpr ⟨hid, h⟩
      exact ⟨hsifted, hkeeps _ _ hkept⟩

private theorem Succeeds.offer (h : Succeeds tree playback next) (host : Host)
    {choices : List NodeId} (hchoices : ∀ id ∈ choices, InPlay tree playback id) :
    Succeeds tree playback (next.offer host tree choices).playback := by
  obtain ⟨hsifted, hkept⟩ := h.sift host hchoices
  unfold Playback.offer
  revert hsifted hkept
  generalize next.sift host tree choices = result
  obtain ⟨kept, sifted⟩ := result
  intro hsifted hkept
  cases kept with
  | nil => exact hsifted
  | cons first others =>
    have hwaiting : Succeeds tree playback
        { sifted with cursor := { sifted.cursor with pending := first :: others } } :=
      ⟨hsifted.frames, hkept, hsifted.events⟩
    exact hwaiting.emit ⟨first :: others, hkept, rfl⟩

private theorem Succeeds.leaveScope (h : Succeeds tree playback next) {frames : List Frame}
    (hframes : ∀ frame ∈ frames, InPlay tree playback frame.node) :
    Succeeds tree playback (next.leaveScope tree frames).playback := by
  induction frames with
  | nil => exact (h.withFrames hframes).finish
  | cons frame below ih =>
    have hbelow (other : Frame) (hother : other ∈ below) := hframes other (List.mem_cons_of_mem _ hother)
    unfold Playback.leaveScope
    split
    · exact (h.withFrames hbelow).note _
    · exact ih hbelow

end Playback
end Dialogue
