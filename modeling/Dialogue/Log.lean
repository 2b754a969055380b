import Dialogue.Line.Marker

/-! What parsing and playback note about their own progress. -/
namespace Dialogue

inductive Level
  | trace
  | debug
  | info
  | warn
  | error
  deriving Repr, DecidableEq

def Level.name : Level → String
  | trace => "TRACE"
  | debug => "DEBUG"
  | info => "INFO"
  | warn => "WARN"
  | error => "ERROR"

inductive Notice
  | lineRead (line depth : Nat) (marker : Marker)
  | invalidDedent (line : Nat)
  | declared (key : String) (line : Nat)
  | rejected (line : Nat) (reason : String)
  | parsed (lines nodes diagnostics : Nat)
  | nothingOpen
  | endOfScope (line : Nat)
  | reachedScope (line : Nat)
  | played (kind : String) (line : Nat)
  | jumped (key : String)
  | skippedJump (key : String) (line : Nat)
  | returned (line : Nat)
  | picked (index : Nat)
  deriving Repr, DecidableEq

namespace Notice

def level : Notice → Level
  | lineRead .. => .trace
  | played .. => .trace
  | invalidDedent _ => .warn
  | skippedJump .. => .warn
  | _ => .debug

def message : Notice → String
  | lineRead line depth marker =>
    "line " ++ toString line ++ ": depth " ++ toString depth ++ " " ++ marker.name
  | invalidDedent line =>
    "Invalid dedent on line " ++ toString line ++ ", ignoring the rest of the file"
  | declared key line => "Section '" ++ key ++ "' declared on line " ++ toString line
  | rejected line reason => "Command on line " ++ toString line ++ " rejected: " ++ reason
  | parsed lines nodes diagnostics =>
    "Parsed " ++ toString lines ++ " lines: " ++ toString nodes ++ " nodes, " ++
      toString diagnostics ++ " issues"
  | nothingOpen => "Call stack empty, playback finished"
  | endOfScope line => "End of section on line " ++ toString line ++ ", playback finished"
  | reachedScope line => "Reached section on line " ++ toString line ++ ", playback finished"
  | played kind line => "step: " ++ kind ++ " on line " ++ toString line
  | jumped key => "Jump to '" ++ key ++ "'"
  | skippedJump key line =>
    "Skipping unresolved jump to '" ++ key ++ "' on line " ++ toString line
  | returned line => "Return out of section on line " ++ toString line
  | picked index => "Choice " ++ toString index ++ " picked"

def text (notice : Notice) : String := notice.level.name ++ " " ++ notice.message

end Notice
end Dialogue
