import Dialogue.Tree.Basic

/-! Cursors: places in a dialogue that is being played. -/
namespace Dialogue

/-- A block that is being played and the index of its next child. -/
structure Frame where
  node : NodeId
  next : Nat
  deriving Repr, DecidableEq

namespace Frame

def start (node : NodeId) : Frame := ⟨node, 0⟩

def child? (frame : Frame) (tree : Tree) : Option NodeId := (tree.children frame.node)[frame.next]?

def choices (frame : Frame) (tree : Tree) : List NodeId :=
  ((tree.children frame.node).drop frame.next).takeWhile tree.isChoice

def skip (frame : Frame) (count : Nat) : Frame := { frame with next := frame.next + count }

end Frame

inductive Misuse
  | choicePending
  | nothingPending
  | outOfRange (index count : Nat)
  | unknownScope (key : String)
  deriving Repr, DecidableEq

def Misuse.message : Misuse → String
  | choicePending => "cannot step while choices are pending, call choose first"
  | nothingPending => "no choice is pending"
  | outOfRange index count =>
    "choice " ++ toString index ++ " is out of range, " ++ toString count ++
      " choices are pending"
  | unknownScope key => "no section named '" ++ key ++ "'"

/-- `frames` lists the blocks being played, innermost first; `pending` the choices
that were offered and wait for a pick. -/
structure Cursor where
  frames : List Frame
  pending : List NodeId := []
  finished : Bool := false
  deriving Repr, DecidableEq

namespace Cursor

def new : Cursor := { frames := [.start Tree.root] }

def atScope (tree : Tree) (key : String) : Except Misuse Cursor :=
  match tree.find? key with
  | some id => .ok { frames := [.start id] }
  | none => .error (.unknownScope key)

def isWaiting (cursor : Cursor) : Bool := !cursor.pending.isEmpty

def depth (cursor : Cursor) : Nat := cursor.frames.length

def enter (cursor : Cursor) (id : NodeId) : Cursor :=
  { cursor with frames := .start id :: cursor.frames }

def choose (cursor : Cursor) (index : Nat) : Except Misuse Cursor :=
  match cursor.pending[index]? with
  | some id => .ok { cursor.enter id with pending := [] }
  | none =>
    .error (if cursor.isWaiting then .outOfRange index cursor.pending.length else .nothingPending)

theorem eq_of_atScope {tree : Tree} {key : String} {id : NodeId} {cursor : Cursor}
    (hfind : tree.find? key = some id) (h : atScope tree key = .ok cursor) :
    cursor = { frames := [.start id] } := by
  rw [atScope, hfind] at h
  exact (Except.ok.inj h).symm

end Cursor
end Dialogue
