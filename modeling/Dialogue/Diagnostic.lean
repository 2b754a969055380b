import Dialogue.Checker

/-! Diagnostics that a parse collects, and the failure that ends it. A diagnostic
keeps its cause; kind, severity and wording are read off the cause. -/
namespace Dialogue

inductive Severity
  | error
  | warning
  deriving Repr, DecidableEq

def Severity.name : Severity → String
  | error => "Error"
  | warning => "Warning"

inductive Cause
  /-- Deeper than the blocks that are open. -/
  | tooDeep
  /-- A dedent that would leave a section. -/
  | invalidDedent
  | nothingAfter (hint : String)
  | unknownScope (key : String)
  | duplicateScope (key : String) (firstLine : Nat)
  | ignoredText (text : String)
  | rejectedCommand (rejection : Rejection)
  | rejectedCondition (rejection : Rejection)
  deriving Repr, DecidableEq

namespace Cause

def kind : Cause → String
  | tooDeep => "UnexpectedIndentation"
  | invalidDedent => "UnexpectedIndentation"
  | nothingAfter _ => "TokenEmpty"
  | unknownScope _ => "UnknownScope"
  | duplicateScope .. => "DuplicateScope"
  | ignoredText _ => "TokenNonEmpty"
  | rejectedCommand _ => "FailedToInterpretCommand"
  | rejectedCondition _ => "FailedToInterpretConditional"

def severity : Cause → Severity
  | ignoredText _ => .warning
  | _ => .error

def message : Cause → String
  | tooDeep =>
    "the indentation is one or more level too deep, this might result in unexpected dialog flow"
  | invalidDedent => "dedent crosses a section boundary, the rest of the file is ignored"
  | nothingAfter hint => hint
  | unknownScope key => "could not find section '" ++ key ++ "' in file"
  | duplicateScope key firstLine =>
    "section '" ++ key ++ "' is already declared on line " ++ toString firstLine
  | ignoredText text => "'" ++ text ++ "' is ignored"
  | rejectedCommand rejection => rejection.reason
  | rejectedCondition rejection => rejection.reason

def rejection? : Cause → Option Rejection
  | rejectedCommand rejection => some rejection
  | rejectedCondition rejection => some rejection
  | _ => none

end Cause

structure Hints where
  scope : String
  command : String
  choice : String
  guard : String
  jump : String

def hints : Hints where
  scope := "looks like a Section, you should append a name to it"
  command :=
    "looks like you want to create a Command here but you didn't provide the actual command"
  choice := "looks like a Choice, you must append a line of text to this choice"
  guard := "looks like a ConditionalChoice, you must provide a command between its '#'"
  jump := "looks like a Jump, you must append the name of a section as a destination"

structure Diagnostic where
  line : Nat
  column : Nat
  cause : Cause
  deriving Repr, DecidableEq

namespace Diagnostic

def kind (diagnostic : Diagnostic) : String := diagnostic.cause.kind

def severity (diagnostic : Diagnostic) : Severity := diagnostic.cause.severity

def isError (diagnostic : Diagnostic) : Bool := diagnostic.severity = .error

def message (diagnostic : Diagnostic) : String := diagnostic.cause.message

def display (diagnostic : Diagnostic) : String :=
  "@" ++ toString diagnostic.line ++ "," ++ toString diagnostic.column ++ ": " ++
    diagnostic.kind ++ ": " ++ diagnostic.message

end Diagnostic

inductive ParseError
  | duplicateScope (key : String) (line firstLine : Nat)
  deriving Repr, DecidableEq

def ParseError.message : ParseError → String
  | duplicateScope key line firstLine =>
    "section '" ++ key ++ "' on line " ++ toString line ++ " is already declared on line " ++
      toString firstLine

end Dialogue
