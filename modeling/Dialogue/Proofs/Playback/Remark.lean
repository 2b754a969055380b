import Dialogue.Proofs.Playback.Mirror
import Dialogue.Proofs.Tree.Remark

/-! Playing past a remark. Whoever plays a tree with a comment put in is one move behind at times,
but is shown and asked the same. A session is told by what is requested, not by the number of moves
that its steps are allowed: those of one tree come to rest exactly if those of the other do. -/
namespace Dialogue

inductive Request
  | step
  | choose (index : Nat)
  deriving Repr, DecidableEq

def Request.call (moves : Nat) : Request → Call
  | step => .step moves
  | choose index => .choose index

/-- A session in which every step returns, however many moves that takes. -/
def Playback.Settles (host : Host) (tree : Tree) (start : Option String) (requests : List Request)
    (outcome : Except Misuse (List Reply × List Event)) : Prop :=
  ∃ moves, Playback.session host tree start (requests.map (Request.call moves)) = outcome ∧
    ∀ told, outcome = .ok told → Reply.unsettled ∉ told.1

namespace Playback

variable {host : Host} {first second : Tree} {place : NodeId}

/-- One playback trails another: it does the same, given so many moves for a step. -/
structure Trails (host : Host) (first second : Tree) (grant : Nat → Nat)
    (related : Playback → Playback → Prop) : Prop where
  events : ∀ {playback twin}, related playback twin → twin.events = playback.events
  waiting : ∀ {playback twin}, related playback twin →
    twin.cursor.isWaiting = playback.cursor.isWaiting
  choose : ∀ {playback twin}, related playback twin → ∀ index,
    (∃ misuse, playback.choose index = .error misuse ∧ twin.choose index = .error misuse) ∨
      ∃ next after, playback.choose index = .ok next ∧ twin.choose index = .ok after ∧
        related next after
  run : ∀ {playback twin}, related playback twin → ∀ {moves more next},
    playback.run host first moves = some (more, next) →
      ∃ after, twin.run host second (grant moves) = some (more, after) ∧ related next after

namespace Trails

variable {grant : Nat → Nat} {related : Playback → Playback → Prop} {playback twin : Playback}
  {moves : Nat}

private theorem perform (h : Trails host first second grant related)
    (hrelated : related playback twin) {request : Request}
    (hsettled : playback.reply host first (request.call moves) ≠ .unsettled) :
    twin.reply host second (request.call (grant moves)) =
        playback.reply host first (request.call moves) ∧
      related (playback.perform host first (request.call moves))
        (twin.perform host second (request.call (grant moves))) := by
  cases request with
  | step =>
    simp only [Request.call, reply, step, Playback.perform, h.waiting hrelated] at hsettled ⊢
    by_cases hwaiting : playback.cursor.isWaiting
    · simp only [if_pos hwaiting, true_and]
      exact hrelated
    · simp only [if_neg hwaiting] at hsettled ⊢
      cases hrun : playback.run host first moves with
      | none =>
        rw [hrun] at hsettled
        exact absurd rfl hsettled
      | some result =>
        obtain ⟨more, next⟩ := result
        obtain ⟨after, hafter, hnext⟩ := h.run hrelated hrun
        rw [hafter, advance_of_run hrun, advance_of_run hafter]
        exact ⟨rfl, hnext⟩
  | choose index =>
    simp only [Request.call, reply, Playback.perform]
    rcases h.choose hrelated index with ⟨misuse, hone, htwo⟩ | ⟨next, after, hone, htwo, hnext⟩
    · rw [hone, htwo]
      exact ⟨rfl, hrelated⟩
    · rw [hone, htwo]
      exact ⟨rfl, hnext⟩

private theorem calls (h : Trails host first second grant related)
    (hrelated : related playback twin) {requests : List Request}
    (hsettled : Reply.unsettled ∉
      playback.replies host first (requests.map (Request.call moves))) :
    twin.replies host second (requests.map (Request.call (grant moves))) =
        playback.replies host first (requests.map (Request.call moves)) ∧
      related ((requests.map (Request.call moves)).foldl (Playback.perform host first) playback)
        ((requests.map (Request.call (grant moves))).foldl (Playback.perform host second)
          twin) := by
  induction requests generalizing playback twin with
  | nil => exact ⟨rfl, hrelated⟩
  | cons request requests ih =>
    simp only [List.map_cons, replies, List.mem_cons, not_or] at hsettled ⊢
    obtain ⟨hreply, hnext⟩ := h.perform hrelated (Ne.symm hsettled.1)
    obtain ⟨hreplies, hlast⟩ := ih hnext hsettled.2
    exact ⟨by rw [hreply, hreplies], hlast⟩

theorem settles (h : Trails host first second grant related) {start : Option String}
    (hstart : (∃ misuse, Cursor.start first start = .error misuse ∧
        Cursor.start second start = .error misuse) ∨
      ∃ cursor other, Cursor.start first start = .ok cursor ∧
        Cursor.start second start = .ok other ∧ related { cursor } { cursor := other })
    {requests : List Request} {outcome : Except Misuse (List Reply × List Event)}
    (hsettles : Settles host first start requests outcome) :
    Settles host second start requests outcome := by
  obtain ⟨moves, hsession, hsettled⟩ := hsettles
  refine ⟨grant moves, ?_, hsettled⟩
  rcases hstart with ⟨misuse, hone, htwo⟩ | ⟨cursor, other, hone, htwo, hrelated⟩
  · rw [session, hone] at hsession
    rw [session, htwo, ← hsession]
    rfl
  · rw [session, hone] at hsession
    obtain ⟨hreplies, hlast⟩ := h.calls hrelated (hsettled _ hsession.symm)
    rw [session, htwo, ← hsession]
    exact congrArg Except.ok (Prod.ext hreplies (congrArg Array.toList (h.events hlast)))

end Trails
end Playback

theorem Frame.Mirrors.drop_remark {first second : Tree} {place : NodeId} {frame twin : Frame}
    (h : frame.Mirrors (first.remark place) first second twin)
    (hchild : twin.child? second = some place) :
    (second.children (twin.skip 1).node).drop (twin.skip 1).next =
      ((first.children frame.node).drop frame.next).map (around place) := by
  have hrest : first.Beside place _ _ := h.rest
  rw [Frame.child?_eq_head?] at hchild
  obtain ⟨more, hmore⟩ := List.head?_eq_some_iff.mp hchild
  rw [hmore] at hrest
  show (second.children twin.node).drop (twin.next + 1) = _
  rw [← List.drop_drop, hmore, List.drop_succ_cons, List.drop_zero]
  rcases hrest.cases_head with ⟨_, hnone⟩ | hcons | ⟨id, _, _, _, hcons⟩
  · contradiction
  · exact (List.cons.inj hcons).2
  · exact absurd (List.cons.inj hcons).1.symm (around_ne place id)

namespace Playback

variable {first second : Tree} {place : NodeId} {playback twin : Playback}

theorem Mirrors.ready_of_child? (htree : first.Remarked second place)
    (h : playback.Mirrors (first.remark place) first second twin)
    (hnext : ∀ frame ∈ twin.cursor.frames.head?, frame.child? second ≠ some place) :
    Ready (first.remark place) first second playback twin := by
  have hframes := h.frames
  unfold Ready
  generalize playback.cursor.frames = frames at hframes
  generalize twin.cursor.frames = others at hframes hnext
  cases hframes with
  | nil => exact fun frame hframe => absurd hframe (Option.not_mem_none frame)
  | @cons _ copy _ _ hframe =>
    rintro _ ⟨⟩ _ ⟨⟩
    have hhead := hnext copy (Option.mem_def.mpr rfl)
    rw [Frame.child?_eq_head?] at hhead
    exact htree.ready hframe.rest hhead

/-- Both sides move alike, or the remark is passed first, which nobody is told. -/
theorem mirrors_move_or_pass (htree : first.Remarked second place)
    (h : playback.Mirrors (first.remark place) first second twin) (host : Host) :
    (playback.move host first).Mirrors (first.remark place) first second
        (twin.move host second) ∨
      ∃ next, twin.move host second = .on next ∧
        playback.Mirrors (first.remark place) first second next ∧
        (playback.move host first).Mirrors (first.remark place) first second
          (next.move host second) := by
  by_cases hnext : ∀ frame ∈ twin.cursor.frames.head?, frame.child? second ≠ some place
  · exact .inl (mirrors_move htree.paired h host (h.ready_of_child? htree hnext))
  · have hframes := h.frames
    obtain ⟨copy, hcopy, hchild⟩ : ∃ copy ∈ twin.cursor.frames.head?,
        copy.child? second = some place := by
      simpa using hnext
    obtain ⟨under, hunder⟩ := List.head?_eq_some_iff.mp (Option.mem_def.mp hcopy)
    rw [hunder] at hframes
    obtain ⟨span, text, hremark⟩ := htree.remark
    generalize hsource : playback.cursor.frames = frames at hframes
    cases hframes with
    | @cons frame _ below _ hframe hbelow =>
      have hskipped := hframe.drop_remark hchild
      have hpassed : playback.Mirrors (first.remark place) first second
          (twin.pass copy under ⟨span, .leaf (.comment text)⟩) := by
        refine ⟨h.events, ?_, h.pending, h.finished⟩
        rw [hsource]
        refine .cons ⟨hframe.isScope, ?_⟩ hbelow
        rw [hskipped]
        exact .elsewhere _
      have hready := hpassed.ready_of_child? htree fun frame hframe hsame => by
        obtain rfl := Option.some.inj (Option.mem_def.mp hframe)
        rw [Frame.child?_eq_head?, hskipped] at hsame
        exact place_notMem_map_around _ _ (List.mem_of_mem_head? hsame)
      refine .inr ⟨_, ?_, hpassed, mirrors_move htree.paired hpassed host hready⟩
      rw [move, hunder]
      simp only [hchild, play, hremark]

/-- At most every other move is spent on the remark. -/
theorem Mirrors.run (htree : first.Remarked second place)
    (h : playback.Mirrors (first.remark place) first second twin) (host : Host) {moves : Nat}
    {pauses : Bool} {next : Playback}
    (hrun : playback.run host first moves = some (pauses, next)) :
    ∃ after, twin.run host second (2 * moves) = some (pauses, after) ∧
      next.Mirrors (first.remark place) first second after := by
  induction moves generalizing playback twin with
  | zero => contradiction
  | succ moves ih =>
    -- After a move that both make, there is one move more than twice as many to spare.
    have hmoved {other : Playback} (hmove : (playback.move host first).Mirrors (first.remark place)
        first second (other.move host second)) :
        ∃ after, other.run host second (2 * moves + 1) = some (pauses, after) ∧
          next.Mirrors (first.remark place) first second after := by
      rw [Playback.run] at hrun ⊢
      generalize playback.move host first = move at hmove hrun
      generalize other.move host second = image at hmove
      rcases hmove with ⟨hmirrors⟩ | ⟨hmirrors⟩ | ⟨hmirrors⟩
      · exact ih hmirrors hrun
      · obtain ⟨rfl, rfl⟩ := Prod.mk.inj (Option.some.inj hrun)
        exact ⟨_, rfl, hmirrors⟩
      · obtain ⟨rfl, rfl⟩ := Prod.mk.inj (Option.some.inj hrun)
        exact ⟨_, rfl, hmirrors⟩
    rcases mirrors_move_or_pass htree h host with hmove | ⟨passed, hpass, _, hmove⟩
    · obtain ⟨after, hafter, hmirrors⟩ := hmoved hmove
      exact ⟨after, run_add hafter 1, hmirrors⟩
    · obtain ⟨after, hafter, hmirrors⟩ := hmoved hmove
      refine ⟨after, ?_, hmirrors⟩
      rw [show 2 * (moves + 1) = 2 * moves + 1 + 1 by omega, Playback.run, hpass]
      exact hafter

/-- Without the remark no more moves are needed. -/
theorem Mirrors.run_back (htree : first.Remarked second place)
    (h : playback.Mirrors (first.remark place) first second twin) (host : Host) {moves : Nat}
    {pauses : Bool} {after : Playback}
    (hrun : twin.run host second moves = some (pauses, after)) :
    ∃ next, playback.run host first moves = some (pauses, next) ∧
      next.Mirrors (first.remark place) first second after := by
  induction moves generalizing playback twin with
  | zero => contradiction
  | succ moves ih =>
    rw [Playback.run] at hrun
    rcases mirrors_move_or_pass htree h host with hmove | ⟨passed, hpass, hmirrors, _⟩
    · rw [Playback.run]
      generalize playback.move host first = move at hmove
      generalize twin.move host second = image at hmove hrun
      rcases hmove with ⟨hmirrors⟩ | ⟨hmirrors⟩ | ⟨hmirrors⟩
      · exact ih hmirrors hrun
      · obtain ⟨rfl, rfl⟩ := Prod.mk.inj (Option.some.inj hrun)
        exact ⟨_, rfl, hmirrors⟩
      · obtain ⟨rfl, rfl⟩ := Prod.mk.inj (Option.some.inj hrun)
        exact ⟨_, rfl, hmirrors⟩
    · rw [hpass] at hrun
      obtain ⟨next, hnext, hlast⟩ := ih hmirrors hrun
      exact ⟨next, run_add hnext 1, hlast⟩

private theorem trails_remark (htree : first.Remarked second place) (host : Host) :
    Trails host first second (2 * ·) (Mirrors (first.remark place) first second) where
  events h := h.events.symm
  waiting h := h.isWaiting_eq.symm
  choose h := h.choose htree.paired
  run h _ _ _ hrun := h.run htree host hrun

private theorem trails_back (htree : first.Remarked second place) (host : Host) :
    Trails host second first (fun moves => moves)
      (fun twin playback => playback.Mirrors (first.remark place) first second twin) where
  events h := h.events
  waiting h := h.isWaiting_eq
  choose h index := by
    rcases h.choose htree.paired index with
      ⟨misuse, hone, htwo⟩ | ⟨next, after, hone, htwo, hnext⟩
    · exact .inl ⟨misuse, htwo, hone⟩
    · exact .inr ⟨after, next, htwo, hone, hnext⟩
  run h _ _ _ hrun := h.run_back htree host hrun

end Playback

theorem Tree.Remarked.settles_iff {first second : Tree} {place : NodeId}
    (h : first.Remarked second place) (host : Host) (start : Option String)
    (requests : List Request) (outcome : Except Misuse (List Reply × List Event)) :
    Playback.Settles host second start requests outcome ↔
      Playback.Settles host first start requests outcome := by
  have hroot : (first.remark place).node Tree.root Tree.root := (around_of_lt h.pos).symm
  have hstart := h.paired.start (Frame.mirrors_start h.paired hroot) start
  refine ⟨(Playback.trails_back h host).settles ?_,
    (Playback.trails_remark h host).settles hstart⟩
  rcases hstart with ⟨misuse, hone, htwo⟩ | ⟨cursor, other, hone, htwo, hmirrors⟩
  · exact .inl ⟨misuse, htwo, hone⟩
  · exact .inr ⟨other, cursor, htwo, hone, hmirrors⟩

end Dialogue
