/-! The host of a playback. It is shown lines and choices and evaluates commands
and conditions. Its answers may depend on all that happened before, so a host is
a function of the earlier events. -/
namespace Dialogue

structure Offer where
  text : String
  conditional : Bool
  deriving Repr, DecidableEq

inductive Event
  | line (text : String)
  /-- A command or the condition of a choice, with the answer that the host gave. -/
  | evaluated (text : String) (hasBody answer : Bool)
  | offered (offers : List Offer)
  deriving Repr, DecidableEq

/-- `answer earlier text hasBody` tells whether the body of a command is played,
or whether the choice with this condition is offered. -/
structure Host where
  answer : Array Event → String → Bool → Bool

end Dialogue
