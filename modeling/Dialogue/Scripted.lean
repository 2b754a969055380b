import Dialogue.Checker
import Dialogue.Playback.Host

/-! Checkers and hosts that follow a list of rules. The first rule that fits a
call answers it. -/
namespace Dialogue

namespace Text

def occursIn (part : List Char) : List Char → Bool
  | [] => part.isEmpty
  | c :: text => part.isPrefixOf (c :: text) || occursIn part text

theorem occursIn_iff {part text : List Char} : occursIn part text = true ↔ part <:+: text := by
  induction text with
  | nil => rw [occursIn, List.isEmpty_iff, List.infix_nil]
  | cons c text ih =>
    rw [occursIn, Bool.or_eq_true, List.isPrefixOf_iff_prefix, ih, List.infix_cons_iff]

def fill (text : List Char) : List Char → List Char
  | [] => []
  | '\x7b' :: '\x7d' :: rest => text ++ fill text rest
  | c :: rest => c :: fill text rest

end Text

inductive Comparison
  | always
  | equals
  | startsWith
  | contains
  deriving Repr, DecidableEq

/-- Which calls a rule is about: those whose text compares as wanted, after at
least `first` and fewer than `stop` earlier calls. -/
structure Pattern where
  comparison : Comparison := .always
  text : String := ""
  first : Nat := 0
  stop : Option Nat := none
  deriving Repr, DecidableEq

def Comparison.holds (comparison : Comparison) (expected text : List Char) : Bool :=
  match comparison with
  | always => true
  | equals => expected == text
  | startsWith => expected.isPrefixOf text
  | contains => Text.occursIn expected text

def Pattern.fits (pattern : Pattern) (earlier : Nat) (text : String) : Bool :=
  pattern.first ≤ earlier && pattern.stop.all (earlier < ·) &&
    pattern.comparison.holds pattern.text.toList text.toList

inductive Subject
  | command
  | condition
  deriving Repr, DecidableEq

def Query.subject : Query → Subject
  | command _ => .command
  | condition _ => .condition

/-- Turns queries of one kind or of both down. An empty pair of braces in the
reason stands for the text of the query. -/
structure CheckerRule where
  pattern : Pattern
  subject : Option Subject := none
  reason : String := ""
  deriving Repr, DecidableEq

def CheckerRule.fits (rule : CheckerRule) (earlier : Nat) (query : Query) : Bool :=
  rule.subject.all (· == query.subject) && rule.pattern.fits earlier query.text

def Checker.scripted (rules : List CheckerRule) : Checker where
  rejects earlier query :=
    (rules.find? (·.fits earlier.size query)).map fun rule =>
      ⟨String.ofList (Text.fill query.text.toList rule.reason.toList)⟩

/-- Answers evaluations with a body, without one, or both. -/
structure HostRule where
  pattern : Pattern
  hasBody : Option Bool := none
  answer : Bool := false
  deriving Repr, DecidableEq

def HostRule.fits (rule : HostRule) (earlier : Nat) (text : String) (hasBody : Bool) : Bool :=
  rule.hasBody.all (· == hasBody) && rule.pattern.fits earlier text

def Event.isEvaluation : Event → Bool
  | evaluated .. => true
  | _ => false

def Host.scripted (rules : List HostRule) (otherwise : Bool) : Host where
  answer earlier text hasBody :=
    match rules.find? (·.fits (earlier.countP Event.isEvaluation) text hasBody) with
    | some rule => rule.answer
    | none => otherwise

end Dialogue
