import Dialogue.Options
import Dialogue.Line.Basic
import Dialogue.Line.Guard
import Dialogue.Tree.Draft
import Dialogue.Parse.Journal

/-! Reading a script line by line. Leading tabs alone decide the nesting: a line
belongs to the block that many levels down, and ends the blocks further in. -/
namespace Dialogue

/-- A jump whose target is looked up once all sections are known. -/
structure Link where
  node : NodeId
  key : String
  line : Nat
  column : Nat
  deriving Repr, DecidableEq

inductive Status
  | running
  /-- The lines that follow are counted and nothing else. -/
  | stopped
  | failed (error : ParseError)
  deriving Repr, DecidableEq

structure Progress where
  draft : Draft := .empty
  lineCount : Nat := 0
  links : Array Link := #[]
  journal : Journal := {}
  status : Status := .running

namespace Progress

def report (progress : Progress) (line column : Nat) (cause : Cause) : Progress :=
  { progress with journal := progress.journal.report line column cause }

def note (progress : Progress) (notice : Notice) : Progress :=
  { progress with journal := progress.journal.note notice }

def reportBare (progress : Progress) (line : Line) (hint : String) : Progress :=
  progress.report line.number line.column (.nothingAfter hint)

def openNamed (progress : Progress) (span : Span) (key : String) : Progress :=
  let draft := progress.draft.addScope span key
  { progress with
    draft := { draft with tree := draft.tree.declare key draft.innermost } }.note
      (.declared key span.line)

/-- Opens a section. If its name is taken, the options say whether the parse
fails or the section stays without an entry in the table. -/
def openScope (options : Options) (progress : Progress) (span : Span) (key : String) : Progress :=
  match progress.draft.tree.find? key with
  | none => progress.openNamed span key
  | some first =>
    let firstLine := progress.draft.tree.lineOf first
    match options.duplicates with
    | .fail => { progress with status := .failed (.duplicateScope key span.line firstLine) }
    | .report =>
      { progress with draft := progress.draft.addScope span key }.report span.line span.column
        (.duplicateScope key firstLine)

/-- An indented section line is reported. Unless the options are strict it
declares a section all the same. -/
def addScope (options : Options) (progress : Progress) (line : Line) : Progress :=
  let checked := if line.depth = 1 then progress
    else progress.report line.number line.column .tooDeep
  if line.depth ≠ 1 ∧ options.strictIndentation then checked
  else
    match line.excerpt? with
    | none => checked.reportBare line hints.scope
    | some name => checked.openScope options (.single line.number name.column) name.text

/-- Consecutive command lines of one depth form a single command. -/
def addCommand (progress : Progress) (line : Line) : Progress :=
  match line.excerpt? with
  | none => progress.reportBare line hints.command
  | some command =>
    { progress with
      draft := match progress.draft.extensible? with
        | some id => progress.draft.extend id line.number command.text
        | none =>
          progress.draft.addBlock (.single line.number command.column) (.command command.text) }

/-- The checker sees the condition of a choice at once; if it is rejected, the
line is dropped. -/
def addGuarded (checker : Checker) (progress : Progress) (span : Span) (parts : Guarded) :
    Progress :=
  let column := span.column + parts.offset
  let condition := parts.condition
  if condition = "" then progress.report span.line column (.nothingAfter hints.guard)
  else
    match progress.journal.ask checker (.condition condition) with
    | (some rejection, journal) =>
      { progress with journal }.report span.line column (.rejectedCondition rejection)
    | (none, journal) =>
      { progress with
        journal
        draft := progress.draft.addBlock span (.choice parts.label (some condition)) }

def addChoice (checker : Checker) (progress : Progress) (line : Line) : Progress :=
  match line.excerpt? with
  | none => progress.reportBare line hints.choice
  | some choice =>
    let span := Span.single line.number choice.column
    match Guarded.split? choice.text.toList with
    | some parts => progress.addGuarded checker span parts
    | none => { progress with draft := progress.draft.addBlock span (.choice choice.text none) }

def addComment (progress : Progress) (line : Line) : Progress :=
  let comment := line.excerpt?.getD ⟨line.column, ""⟩
  { progress with
    draft := progress.draft.addLeaf (.single line.number comment.column) (.comment comment.text) }

def addJump (progress : Progress) (line : Line) : Progress :=
  match line.excerpt? with
  | none => progress.reportBare line hints.jump
  | some key =>
    { progress with
      draft := progress.draft.addLeaf (.single line.number key.column) (.jump key.text none)
      links := progress.links.push
        ⟨progress.draft.tree.size, key.text, line.number, line.restColumn⟩ }

/-- Text after a return marker is ignored, with a warning. -/
def addBack (progress : Progress) (line : Line) : Progress :=
  let checked := match line.excerpt? with
    | none => progress
    | some extra => progress.report line.number extra.column (.ignoredText extra.text)
  { checked with
    draft := checked.draft.addLeaf (.single line.number line.column) .back }

def addText (progress : Progress) (line : Line) : Progress :=
  match line.excerpt? with
  | none => progress
  | some text =>
    { progress with
      draft := progress.draft.addLeaf (.single line.number text.column) (.line text.text) }

def add (options : Options) (checker : Checker) (progress : Progress) (line : Line) : Progress :=
  match line.marker with
  | .scope => progress.addScope options line
  | .command => progress.addCommand line
  | .choice => progress.addChoice checker line
  | .comment => progress.addComment line
  | .jump => progress.addJump line
  | .back => progress.addBack line
  | .text => progress.addText line

/-- Closes the blocks that a line does not belong to, then adds it. A line that
is deeper than the open blocks is left out. -/
def place (options : Options) (checker : Checker) (progress : Progress) (line : Line) : Progress :=
  if progress.draft.opened.length < line.depth then
    progress.report line.number line.column .tooDeep
  else
    match Draft.dedent line.depth line.number progress.draft.tree progress.draft.opened with
    | (true, draft) => { progress with draft }.add options checker line
    | (false, draft) =>
      { progress with draft, status := .stopped }.note (.invalidDedent line.number) |>.report
        line.number line.column .invalidDedent

def feed (options : Options) (checker : Checker) (progress : Progress) (text : String) :
    Progress :=
  let counted := { progress with lineCount := progress.lineCount + 1 }
  match progress.status with
  | .failed _ => progress
  | .stopped => counted
  | .running =>
    match Line.read? progress.lineCount text.toList with
    | none => counted
    | some line =>
      (counted.note (.lineRead line.number line.depth line.marker)).place options checker line

def read (options : Options) (checker : Checker) (lines : List String) : Progress :=
  lines.foldl (feed options checker) {}

end Progress
end Dialogue
