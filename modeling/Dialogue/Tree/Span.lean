/-! Source positions of nodes. -/
namespace Dialogue

/-- `line` and `column` locate the text of a node, `stop` is the line before
which its block was closed. -/
structure Span where
  line : Nat
  column : Nat
  stop : Nat
  deriving Repr, DecidableEq

namespace Span

def single (line column : Nat) : Span := ⟨line, column, line + 1⟩

def size (span : Span) : Nat := span.stop - span.line

def isEmpty (span : Span) : Bool := span.size == 0

def contains (span : Span) (line : Nat) : Bool := span.line ≤ line && line < span.stop

end Span
end Dialogue
