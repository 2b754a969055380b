/-! Markers: the signs in front of a line's text that say what the line is. -/
namespace Dialogue

inductive Marker
  | scope
  | command
  | choice
  | comment
  | jump
  | back
  | text
  deriving Repr, DecidableEq

namespace Marker

def sign : Marker → List Char
  | scope => ['=']
  | command => ['#']
  | choice => ['*']
  | comment => ['/', '/']
  | jump => ['-', '>']
  | back => ['<', '-']
  | text => []

def width (marker : Marker) : Nat := marker.sign.length

def name : Marker → String
  | scope => "Section"
  | command => "Command"
  | choice => "Choice"
  | comment => "Comment"
  | jump => "Jump"
  | back => "Return"
  | text => "Text"

def split : List Char → Marker × List Char
  | '=' :: rest => (scope, rest)
  | '#' :: rest => (command, rest)
  | '*' :: rest => (choice, rest)
  | '/' :: '/' :: rest => (comment, rest)
  | '-' :: '>' :: rest => (jump, rest)
  | '<' :: '-' :: rest => (back, rest)
  | rest => (text, rest)

theorem sign_append_split (chars : List Char) :
    (split chars).1.sign ++ (split chars).2 = chars := by
  unfold split
  split <;> rfl

end Marker
end Dialogue
