import Dialogue.Tree.Span

/-! Nodes of a dialogue. Only blocks have children, which the type says. -/
namespace Dialogue

/-- Nodes are numbered in the order of their creation, the root first. -/
abbrev NodeId := Nat

/-- What holds other nodes: a section (the root has no key), a command with the
lines that are played when it succeeds, or a choice with the lines that follow it. -/
inductive Block
  | scope (key : Option String)
  | command (text : String)
  | choice (text : String) (condition : Option String)
  deriving Repr, DecidableEq

/-- What stands for itself. A jump without a target leads nowhere. -/
inductive Leaf
  | line (text : String)
  | comment (text : String)
  | jump (key : String) (target : Option NodeId)
  | back
  deriving Repr, DecidableEq

inductive Content
  | block (block : Block) (children : List NodeId)
  | leaf (leaf : Leaf)
  deriving Repr, DecidableEq

structure Node where
  span : Span
  content : Content
  deriving Repr, DecidableEq

def Block.isScope : Block → Bool
  | scope _ => true
  | _ => false

def Block.isChoice : Block → Bool
  | choice .. => true
  | _ => false

def Block.name : Block → String
  | scope _ => "Section"
  | command _ => "Command"
  | choice _ none => "Choice"
  | choice _ (some _) => "ConditionalChoice"

def Leaf.name : Leaf → String
  | line _ => "Line"
  | comment _ => "Comment"
  | jump .. => "Jump"
  | back => "Return"

namespace Content

def children : Content → List NodeId
  | block _ children => children
  | leaf _ => []

def mapChildren (f : List NodeId → List NodeId) : Content → Content
  | block b children => block b (f children)
  | leaf l => leaf l

def isScope : Content → Bool
  | block b _ => b.isScope
  | leaf _ => false

def isChoice : Content → Bool
  | block b _ => b.isChoice
  | leaf _ => false

def name : Content → String
  | block b _ => b.name
  | leaf l => l.name

def condition? : Content → Option String
  | block (.choice _ condition) _ => condition
  | _ => none

end Content

namespace Node

def children (node : Node) : List NodeId := node.content.children

def isScope (node : Node) : Bool := node.content.isScope

def isChoice (node : Node) : Bool := node.content.isChoice

def condition? (node : Node) : Option String := node.content.condition?

def mapChildren (f : List NodeId → List NodeId) (node : Node) : Node :=
  { node with content := node.content.mapChildren f }

def stoppedAt (line : Nat) (node : Node) : Node :=
  { node with span := { node.span with stop := line } }

end Node
end Dialogue
