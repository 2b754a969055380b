import Dialogue.Proofs.Parse.Scripts
import Dialogue.Proofs.Playback.Telling

/-! The protocol of steps and picks. What a cursor answers to a call, and what it waits for, is
known from the calls before it and from what the host was told in their course. -/
namespace Dialogue

structure Exchange where
  call : Call
  reply : Reply
  events : List Event
  deriving Repr, DecidableEq

def Reply.isDone : Reply → Bool
  | done => true
  | stepped _ => true
  | _ => false

def Call.isStep : Call → Bool
  | step _ => true
  | choose _ => false

def Exchange.latest? (past : List Exchange) : Option Exchange :=
  (past.filter (·.reply.isDone)).getLast?

namespace Playback

def exchange (host : Host) (tree : Tree) (playback : Playback) (call : Call) : Exchange where
  call
  reply := playback.reply host tree call
  events := (playback.perform host tree call).events.toList.drop playback.events.size

def exchanges (host : Host) (tree : Tree) : Playback → List Call → List Exchange
  | _, [] => []
  | playback, call :: calls => playback.exchange host tree call ::
      exchanges host tree (playback.perform host tree call) calls

structure Orderly (host : Host) (tree : Tree) (past : List Exchange) (playback : Playback) :
    Prop where
  step_refused_iff : ∀ moves result next, playback.step host tree moves = some (result, next) →
    (result = .error .choicePending ↔ playback.cursor.pending ≠ []) ∧
      ∀ misuse, result = .error misuse → misuse = .choicePending
  choose_of_lt : ∀ index id, playback.cursor.pending[index]? = some id →
    ∃ next, playback.choose index = .ok next ∧ next.events = playback.events ∧ next.cursor =
      { frames := .start id :: playback.cursor.frames
        pending := []
        finished := playback.cursor.finished }
  choose_of_le : ∀ index, playback.cursor.pending.length ≤ index →
    playback.choose index = .error
      (if playback.cursor.pending = [] then .nothingPending
        else .outOfRange index playback.cursor.pending.length)
  refused : ∀ call misuse, playback.reply host tree call = .refused misuse →
    playback.perform host tree call = playback
  step_refused : ∀ moves misuse next,
    playback.step host tree moves = some (.error misuse, next) → next = playback
  waiting_iff : playback.cursor.pending ≠ [] ↔ ∃ last offers, Exchange.latest? past = some last ∧
    last.call.isStep = true ∧ .offered offers ∈ last.events
  offered : ∀ last offers, Exchange.latest? past = some last → .offered offers ∈ last.events →
    List.Forall₂ tree.Offers offers playback.cursor.pending
  finished_iff : playback.cursor.finished = true ↔ ∃ call ∈ past, call.reply = .stepped false
  absorbed : playback.cursor.finished = true → ∀ moves, ∃ next,
    playback.step host tree (moves + 1) = some (.ok false, next) ∧
      next.events = playback.events ∧ next.cursor = playback.cursor

variable {host : Host} {tree : Tree} {playback next : Playback} {past : List Exchange}

private theorem exchanges_concat (playback : Playback) (calls : List Call) (call : Call) :
    exchanges host tree playback (calls ++ [call]) = exchanges host tree playback calls ++
      [(calls.foldl (perform host tree) playback).exchange host tree call] := by
  induction calls generalizing playback with
  | nil => rfl
  | cons first rest ih => rw [List.cons_append, exchanges, ih, exchanges, List.foldl_cons]; rfl

inductive Returns (host : Host) (tree : Tree) (playback : Playback) (call : Call) : Prop
  | refused (misuse : Misuse) (hreply : playback.reply host tree call = .refused misuse)
      (hsame : playback.perform host tree call = playback)
  | stepped (moves : Nat) (more : Bool) (next : Playback) (hcall : call = .step moves)
      (hreply : playback.reply host tree call = .stepped more)
      (hnext : playback.perform host tree call = next) (hidle : playback.cursor.pending = [])
      (hrun : playback.run host tree moves = some (more, next))
  | picked (index : Nat) (id : NodeId) (next : Playback) (hcall : call = .choose index)
      (hreply : playback.reply host tree call = .done)
      (hnext : playback.perform host tree call = next)
      (hid : playback.cursor.pending[index]? = some id) (hevents : next.events = playback.events)
      (hcursor : next.cursor = { playback.cursor.enter id with pending := [] })

theorem returns_of_reply {call : Call} (h : playback.reply host tree call ≠ .unsettled) :
    playback.Returns host tree call := by
  cases call with
  | step moves =>
    cases hstep : playback.step host tree moves with
    | none =>
      refine absurd ?_ h
      rw [reply, hstep]
    | some answer =>
      obtain ⟨result, next⟩ := answer
      cases result with
      | ok more =>
        obtain ⟨hidle, hrun⟩ := run_of_step hstep
        refine .stepped moves more next rfl ?_ (perform_step_of_step hstep)
          (isWaiting_eq_false_iff.mp hidle) hrun
        rw [reply, hstep]
      | error misuse =>
        refine .refused misuse (by rw [reply, hstep]) ?_
        rw [perform, if_pos (isWaiting_of_step hstep).1]
  | choose index =>
    cases hid : playback.cursor.pending[index]? with
    | none =>
      have hchoose : playback.choose index = .error
          (if playback.cursor.isWaiting then .outOfRange index playback.cursor.pending.length
            else .nothingPending) := by
        rw [choose, Cursor.choose, hid]
        rfl
      exact .refused _ (by rw [reply, hchoose]) (by rw [perform, hchoose])
    | some id =>
      have hchoose := choose_of_getElem? hid
      exact .picked index id _ rfl (by rw [reply, hchoose]) (perform_choose_of_choose hchoose) hid
        rfl rfl

theorem perform_of_refused {call : Call} {misuse : Misuse}
    (h : playback.reply host tree call = .refused misuse) :
    playback.perform host tree call = playback := by
  cases returns_of_reply (by rw [h]; exact fun hno => Reply.noConfusion hno) with
  | refused _ _ hsame => exact hsame
  | stepped _ _ _ _ hreply =>
    rw [h] at hreply
    contradiction
  | picked _ _ _ _ hreply =>
    rw [h] at hreply
    contradiction

private theorem refused_iff_of_step {moves : Nat} {result : Except Misuse Bool}
    (h : playback.step host tree moves = some (result, next)) :
    (result = .error .choicePending ↔ playback.cursor.pending ≠ []) ∧
      ∀ misuse, result = .error misuse → misuse = .choicePending := by
  cases result with
  | ok more =>
    have hidle := isWaiting_eq_false_iff.mp (run_of_step h).1
    refine ⟨iff_of_false (fun hno => ?_) fun hne => hne hidle, fun misuse hno => ?_⟩
    · cases hno
    · cases hno
  | error misuse =>
    obtain ⟨hwait, rfl⟩ := isWaiting_of_step h
    refine ⟨iff_of_true rfl fun hnil => ?_, fun other heq => (Except.error.inj heq).symm⟩
    rw [isWaiting_eq_false_iff.mpr hnil] at hwait
    contradiction

private theorem eq_of_step_refused {moves : Nat} {misuse : Misuse}
    (h : playback.step host tree moves = some (.error misuse, next)) : next = playback := by
  rw [step_of_isWaiting (isWaiting_of_step h).1] at h
  exact (Prod.mk.inj (Option.some.inj h)).2.symm

private theorem choose_of_length_le {index : Nat} (h : playback.cursor.pending.length ≤ index) :
    playback.choose index = .error
      (if playback.cursor.pending = [] then .nothingPending
        else .outOfRange index playback.cursor.pending.length) := by
  rw [choose, Cursor.choose, List.getElem?_eq_none h]
  cases hpending : playback.cursor.pending with
  | nil => simp [Cursor.isWaiting, hpending, Except.map]
  | cons => simp [Cursor.isWaiting, hpending, Except.map]

theorem exists_step_of_atEnd (hend : playback.AtEnd tree) (hidle : playback.cursor.pending = [])
    (hflag : playback.cursor.finished = true) (moves : Nat) :
    ∃ next, playback.step host tree (moves + 1) = some (.ok false, next) ∧
      next.events = playback.events ∧ next.cursor = playback.cursor := by
  obtain ⟨notice, hrun⟩ : ∃ notice, playback.run host tree (moves + 1) = _ :=
    run_of_atEnd hend moves
  refine ⟨_, step_of_run (isWaiting_eq_false_iff.mpr hidle) hrun, rfl, ?_⟩
  show { playback.cursor with finished := true } = playback.cursor
  rw [← hflag]

private theorem events_exchange {call : Call} {told : List Event}
    (h : (playback.perform host tree call).events.toList = playback.events.toList ++ told) :
    (playback.exchange host tree call).events = told := by
  rw [exchange, h, ← Array.length_toList, List.drop_left]

/-- What is known between two calls: what waits was offered by the last call that was obeyed, and
the playback is over if a step said so. -/
structure Consistent (tree : Tree) (past : List Exchange) (playback : Playback) : Prop where
  waiting : playback.cursor.pending ≠ [] → ∃ last offers, Exchange.latest? past = some last ∧
    last.call.isStep = true ∧ .offered offers ∈ last.events
  offered : ∀ last offers, Exchange.latest? past = some last → .offered offers ∈ last.events →
    playback.cursor.pending ≠ [] ∧ List.Forall₂ tree.Offers offers playback.cursor.pending
  finished_iff : playback.cursor.finished = true ↔ ∃ call ∈ past, call.reply = .stepped false
  atEnd : playback.cursor.finished = true → playback.cursor.pending = [] ∧ playback.AtEnd tree

theorem Exchange.latest?_concat (past : List Exchange) (call : Exchange) :
    Exchange.latest? (past ++ [call]) =
      if call.reply.isDone then some call else Exchange.latest? past := by
  rw [Exchange.latest?, List.filter_append]
  cases hdone : call.reply.isDone with
  | true =>
    rw [List.filter_cons_of_pos (by exact hdone), List.filter_nil, List.getLast?_concat, if_pos rfl]
  | false =>
    rw [List.filter_cons_of_neg (by rw [hdone]; exact Bool.false_ne_true), List.filter_nil,
      List.append_nil]
    rfl

theorem exists_stepped_concat (past : List Exchange) (call : Exchange) :
    (∃ other ∈ past ++ [call], other.reply = .stepped false) ↔
      (∃ other ∈ past, other.reply = .stepped false) ∨ call.reply = .stepped false := by
  simp only [List.mem_append, List.mem_singleton, or_and_right, exists_or, exists_eq_left]

theorem Consistent.refused (h : Consistent tree past playback) {call : Exchange} {misuse : Misuse}
    (hreply : call.reply = .refused misuse) : Consistent tree (past ++ [call]) playback := by
  have hlatest : Exchange.latest? (past ++ [call]) = Exchange.latest? past := by
    rw [Exchange.latest?_concat, hreply]
    rfl
  refine ⟨hlatest ▸ h.waiting, hlatest ▸ h.offered, ?_, h.atEnd⟩
  rw [exists_stepped_concat, hreply, h.finished_iff]
  exact (or_iff_left nofun).symm

theorem Consistent.of_done {call : Exchange} (hdone : call.reply.isDone = true)
    (htells : Tells tree next.cursor.pending call.events)
    (hstep : next.cursor.pending ≠ [] → call.call.isStep = true)
    (hfinished : next.cursor.finished = true ↔
      (∃ other ∈ past, other.reply = .stepped false) ∨ call.reply = .stepped false)
    (hend : next.cursor.finished = true → next.cursor.pending = [] ∧ next.AtEnd tree) :
    Consistent tree (past ++ [call]) next := by
  have hlatest : Exchange.latest? (past ++ [call]) = some call := by
    rw [Exchange.latest?_concat, if_pos hdone]
  refine ⟨fun hwait => ?_, fun last offers hlast hoffer => ?_, ?_, hend⟩
  · obtain ⟨offers, hoffer⟩ := htells.waiting hwait
    exact ⟨call, offers, hlatest, hstep hwait, hoffer⟩
  · obtain rfl := Option.some.inj (hlatest.symm.trans hlast)
    exact htells.offered offers hoffer
  · rw [exists_stepped_concat, hfinished]

private theorem Consistent.exchange (h : Consistent tree past playback) {call : Call}
    (hreply : playback.reply host tree call ≠ .unsettled) :
    Consistent tree (past ++ [playback.exchange host tree call])
      (playback.perform host tree call) := by
  cases returns_of_reply hreply with
  | refused misuse hrefused hsame =>
    rw [hsame]
    exact h.refused hrefused
  | stepped moves more next hcall hstepped hnext hidle hrun =>
    obtain ⟨told, htold, htells, hfinished, hend⟩ := tidy_run hidle hrun
    have hevents : (playback.exchange host tree call).events = told :=
      events_exchange (by rw [hnext, htold])
    have hsaid : (playback.exchange host tree call).reply = .stepped more := hstepped
    have hover : next.cursor.finished = true →
        next.cursor.pending = [] ∧ next.AtEnd tree := by
      intro hflag
      cases more with
      | false => exact hend rfl
      | true =>
        -- It was not over before, as it has shown something.
        rw [hfinished, Bool.not_true, Bool.or_false] at hflag
        exact absurd (eq_false_of_atEnd (h.atEnd hflag).2 hrun).symm Bool.false_ne_true
    rw [hnext]
    refine .of_done (by rw [hsaid]; rfl) (hevents ▸ htells) (fun _ => congrArg Call.isStep hcall) ?_
      hover
    rw [hsaid, hfinished, Bool.or_eq_true, h.finished_iff, Bool.not_eq_true', Reply.stepped.injEq]
  | picked index id next hcall hdone hnext hid hevents hcursor =>
    have hsaid : (playback.exchange host tree call).reply = .done := hdone
    have hnone : (playback.exchange host tree call).events = [] :=
      events_exchange (by rw [hnext, hevents, List.append_nil])
    have hflag : next.cursor.finished = playback.cursor.finished := by
      rw [hcursor]
      rfl
    have hempty : next.cursor.pending = [] := by rw [hcursor]
    rw [hnext]
    refine .of_done (by rw [hsaid]; rfl) ?_ (absurd hempty) ?_ fun hfinished => ?_
    · rw [hempty, hnone]
      exact .quiet nofun
    · rw [hsaid, hflag, h.finished_iff]
      exact (or_iff_left nofun).symm
    · -- Nothing waits for a pick once the playback is over.
      rw [hflag] at hfinished
      rw [(h.atEnd hfinished).1] at hid
      contradiction

private theorem consistent_start {start : Option String} {cursor : Cursor}
    (h : Cursor.start tree start = .ok cursor) : Consistent tree [] { cursor } := by
  have hfresh : cursor.pending = [] ∧ cursor.finished = false := by
    cases start with
    | none =>
      obtain rfl := Except.ok.inj h
      exact ⟨rfl, rfl⟩
    | some key =>
      rw [Cursor.start, Cursor.atScope] at h
      cases hfind : tree.find? key with
      | none =>
        rw [hfind] at h
        contradiction
      | some id =>
        rw [hfind] at h
        obtain rfl := Except.ok.inj h
        exact ⟨rfl, rfl⟩
  constructor
  · exact absurd hfresh.1
  · exact fun last _ hlast => absurd hlast (Option.some_ne_none last).symm
  · refine iff_of_false (fun hflag => absurd (hfresh.2.symm.trans hflag) Bool.false_ne_true) ?_
    rintro ⟨call, hmem, _⟩
    contradiction
  · exact fun hflag => absurd (hfresh.2.symm.trans hflag) Bool.false_ne_true

/-- Whatever is called, as long as it comes back. -/
theorem consistent_foldl (h : Consistent tree [] playback) (calls : List Call)
    (hreturned : ∀ call ∈ exchanges host tree playback calls, call.reply ≠ .unsettled) :
    Consistent tree (exchanges host tree playback calls)
      (calls.foldl (perform host tree) playback) := by
  -- What waits depends on the last call, so the calls are taken off at the end.
  revert hreturned
  rw [← calls.reverse_reverse]
  induction calls.reverse with
  | nil => exact fun _ => h
  | cons call before ih =>
    intro hreturned
    rw [List.reverse_cons, exchanges_concat, List.forall_mem_append] at hreturned
    rw [List.reverse_cons, exchanges_concat, List.foldl_append]
    exact (ih hreturned.1).exchange (hreturned.2 _ (List.mem_singleton.mpr rfl))

private theorem Consistent.orderly (h : Consistent tree past playback) :
    Orderly host tree past playback := by
  constructor
  · exact fun moves result next hstep => refused_iff_of_step hstep
  · exact fun index id hid => ⟨_, choose_of_getElem? hid, rfl, rfl⟩
  · exact fun index hle => choose_of_length_le hle
  · exact fun call misuse hrefused => perform_of_refused hrefused
  · exact fun moves misuse next hstep => eq_of_step_refused hstep
  · refine ⟨h.waiting, ?_⟩
    rintro ⟨last, offers, hlast, _, hoffer⟩
    exact (h.offered last offers hlast hoffer).1
  · intro last offers hlast hoffer
    exact (h.offered last offers hlast hoffer).2
  · exact h.finished_iff
  · intro hflag moves
    obtain ⟨hidle, hend⟩ := h.atEnd hflag
    exact exists_step_of_atEnd hend hidle hflag moves

end Playback

/-- Whatever is called on a cursor, in whatever order, the calls before tell what it answers. -/
theorem orderly_of_start {tree : Tree} {start : Option String} {cursor : Cursor}
    (hstart : Cursor.start tree start = .ok cursor) (host : Host) (calls : List Call)
    (hreturned : ∀ call ∈ Playback.exchanges host tree { cursor } calls,
      call.reply ≠ .unsettled) :
    Playback.Orderly host tree (Playback.exchanges host tree { cursor } calls)
      (calls.foldl (Playback.perform host tree) { cursor }) :=
  (Playback.consistent_foldl (Playback.consistent_start hstart) calls hreturned).orderly

/-- Picks come too early, too late and out of range, steps while a pick is due and after the end. -/
theorem orderly_of_misuse :
    let host : Host := ⟨fun _ text _ => text != "no"⟩
    let lines := ["* left #no#", "* right #yes#", "\tright", "= end"]
    let calls : List Call := [.choose 0, .step 9, .step 9, .choose 1, .choose 0, .step 9, .choose 0,
      .step 9, .step 9]
    ∃ script, (parseLines {} .lenient lines).result = .ok script ∧
      Cursor.start script.tree none = .ok .new ∧
      (∀ call ∈ Playback.exchanges host script.tree { cursor := .new } calls,
        call.reply ≠ .unsettled) ∧
      Playback.Orderly host script.tree
        (Playback.exchanges host script.tree { cursor := .new } calls)
        (calls.foldl (Playback.perform host script.tree) { cursor := .new }) ∧
      (Playback.exchanges host script.tree { cursor := .new } calls).map (·.reply) =
        [.refused .nothingPending, .stepped true, .refused .choicePending,
          .refused (.outOfRange 1 1), .done, .stepped true, .refused .nothingPending,
          .stepped false, .stepped false] := by
  intro host lines calls
  have hplayed : (parseLines {} .lenient lines).result.toOption.map (fun script =>
      (Playback.exchanges host script.tree { cursor := .new } calls).map (·.reply)) =
      some [.refused .nothingPending, .stepped true, .refused .choicePending,
        .refused (.outOfRange 1 1), .done, .stepped true, .refused .nothingPending,
        .stepped false, .stepped false] := by
    decide +kernel
  obtain ⟨script, hparse, hreplies⟩ := exists_ok_of_map_toOption hplayed
  have hreturned : ∀ call ∈ Playback.exchanges host script.tree { cursor := .new } calls,
      call.reply ≠ .unsettled := by
    intro call hcall hreply
    have hmem := List.mem_map_of_mem (f := (·.reply)) hcall
    rw [hreplies, hreply] at hmem
    exact absurd hmem (by decide)
  have hstart : Cursor.start script.tree none = .ok .new := rfl
  exact ⟨script, hparse, hstart, hreturned, orderly_of_start hstart host calls hreturned, hreplies⟩

end Dialogue
