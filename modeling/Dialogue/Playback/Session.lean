import Dialogue.Playback.Step

/-! Sessions: named cursors over one tree. The host of a cursor remembers what
happened to this cursor alone, and nothing from before it was made. -/
namespace Dialogue

/-- A cursor and the events it caused, of which the first `reported` are reported. -/
structure Seat where
  cursor : Cursor
  events : Array Event := #[]
  reported : Nat := 0
  deriving Repr, DecidableEq

def Seat.playback (seat : Seat) : Playback := { cursor := seat.cursor, events := seat.events }

inductive Order
  | new
  | start (key : String)
  /-- To become a copy of another cursor. -/
  | fork (source : String)
  | step
  | choose (index : Nat)
  /-- To step up to `limit` times, picking in turn from `picks` where it waits. -/
  | run (limit : Nat) (picks : List Nat)
  deriving Repr, DecidableEq

inductive Reply
  | done
  | stepped (more : Bool)
  | refused (misuse : Misuse)
  | noCursor
  /-- The step did not end within the moves it was allowed. -/
  | unsettled
  deriving Repr, DecidableEq

structure Report where
  reply : Reply
  state : Option (Cursor × List Event)
  deriving Repr, DecidableEq

structure Session where
  seats : List (String × Seat)
  log : Array Notice := #[]
  reports : Array Report := #[]

namespace Session

def new (name : String) (log : Array Notice) : Session :=
  { seats := [(name, { cursor := .new })], log }

def seat? (session : Session) (name : String) : Option Seat := session.seats.lookup name

def put (session : Session) (name : String) (seat : Seat) : Session :=
  { session with seats := (name, seat) :: session.seats.filter (·.1 != name) }

def report (session : Session) (report : Report) : Session :=
  { session with reports := session.reports.push report }

def answer (session : Session) (name : String) (reply : Reply) : Session :=
  match session.seat? name with
  | none => session.report ⟨reply, none⟩
  | some seat =>
    (session.put name { seat with reported := seat.events.size }).report
      ⟨reply, some (seat.cursor, (seat.events.extract seat.reported).toList)⟩

def resume (session : Session) (name : String) (seat : Seat) (playback : Playback) : Session :=
  let session := session.put name
    { seat with cursor := playback.cursor, events := playback.events }
  { session with log := session.log ++ playback.log }

def step (host : Host) (tree : Tree) (moves : Nat) (session : Session) (name : String) :
    Bool × Session :=
  match session.seat? name with
  | none => (false, session.answer name .noCursor)
  | some seat =>
    match seat.playback.step host tree moves with
    | none => (false, session.answer name .unsettled)
    | some (.error misuse, _) => (false, session.answer name (.refused misuse))
    | some (.ok more, playback) =>
      (more, (session.resume name seat playback).answer name (.stepped more))

def choose (session : Session) (name : String) (index : Nat) : Bool × Session :=
  match session.seat? name with
  | none => (false, session.answer name .noCursor)
  | some seat =>
    match seat.playback.choose index with
    | .error misuse => (false, session.answer name (.refused misuse))
    | .ok playback => (true, (session.resume name seat playback).answer name .done)

def isWaiting (session : Session) (name : String) : Bool :=
  (session.seat? name).any (·.cursor.isWaiting)

/-- Steps and picks until the playback ends, a call is refused or the picks run out. -/
def runOn (host : Host) (tree : Tree) (moves : Nat) (name : String) :
    Nat → List Nat → Session → Session
  | 0, _, session => session
  | limit + 1, picks, session =>
    match session.step host tree moves name with
    | (false, session) => session
    | (true, session) =>
      if session.isWaiting name then
        match picks with
        | [] => session
        | index :: picks =>
          match session.choose name index with
          | (false, session) => session
          | (true, session) => runOn host tree moves name limit picks session
      else runOn host tree moves name limit picks session

def obey (host : Host) (tree : Tree) (moves : Nat) (session : Session) (name : String) :
    Order → Session
  | .new => (session.put name { cursor := .new }).answer name .done
  | .start key =>
    match Cursor.atScope tree key with
    | .error misuse => session.answer name (.refused misuse)
    | .ok cursor => (session.put name { cursor }).answer name .done
  | .fork source =>
    match session.seat? source with
    | none => session.answer name .noCursor
    | some seat => (session.put name { cursor := seat.cursor }).answer name .done
  | .step => (session.step host tree moves name).2
  | .choose index => (session.choose name index).2
  | .run limit picks => runOn host tree moves name limit picks session

end Session
end Dialogue
