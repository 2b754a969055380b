import Dialogue.Parse.Progress

/-! What a line does to a parse, as a value. It depends on the options, on the line,
on the verdict of the checker and on the names that are taken, and on nothing else. -/
namespace Dialogue

open Text (Excerpt)

/-- What a line adds to the tree. A section may go without an entry in the table. -/
inductive Growth
  | nothing
  | leaf (column : Nat) (leaf : Leaf)
  | command (column : Nat) (text : String)
  | choice (column : Nat) (text : String) (condition : Option String)
  | scope (column : Nat) (key : String) (declared : Bool)
  deriving Repr, DecidableEq

structure Effect where
  diagnostics : List Diagnostic := []
  asked : List Query := []
  growth : Growth := .nothing
  failure : Option ParseError := none
  deriving Repr, DecidableEq

namespace Line

def complaint (line : Line) (column : Nat) (cause : Cause) : Diagnostic :=
  ⟨line.number, column, cause⟩

def misaligned (line : Line) : List Diagnostic :=
  if line.depth = 1 then [] else [line.complaint line.column .tooDeep]

def bare (line : Line) (hint : String) : Effect :=
  { diagnostics := [line.complaint line.column (.nothingAfter hint)] }

def scopeEffect (options : Options) (taken : String → Option Nat) (line : Line) : Effect :=
  if line.depth ≠ 1 ∧ options.strictIndentation then { diagnostics := line.misaligned }
  else
    match line.excerpt? with
    | none => { diagnostics := line.misaligned ++
        [line.complaint line.column (.nothingAfter hints.scope)] }
    | some name =>
      match taken name.text, options.duplicates with
      | none, _ =>
        { diagnostics := line.misaligned, growth := .scope name.column name.text true }
      | some first, .fail =>
        { diagnostics := line.misaligned
          failure := some (.duplicateScope name.text line.number first) }
      | some first, .report =>
        { diagnostics := line.misaligned ++
            [line.complaint name.column (.duplicateScope name.text first)]
          growth := .scope name.column name.text false }

def guardedEffect (judge : Query → Option Rejection) (line : Line) (column : Nat)
    (parts : Guarded) : Effect :=
  let start := column + parts.offset
  if parts.condition = "" then
    { diagnostics := [line.complaint start (.nothingAfter hints.guard)] }
  else
    match judge (.condition parts.condition) with
    | some rejection =>
      { diagnostics := [line.complaint start (.rejectedCondition rejection)]
        asked := [.condition parts.condition] }
    | none =>
      { asked := [.condition parts.condition]
        growth := .choice column parts.label (some parts.condition) }

def choiceEffect (judge : Query → Option Rejection) (line : Line) : Effect :=
  match line.excerpt? with
  | none => line.bare hints.choice
  | some choice =>
    match Guarded.split? choice.text.toList with
    | some parts => line.guardedEffect judge choice.column parts
    | none => { growth := .choice choice.column choice.text none }

def effect (options : Options) (judge : Query → Option Rejection) (taken : String → Option Nat)
    (line : Line) : Effect :=
  match line.marker with
  | .scope => line.scopeEffect options taken
  | .command =>
    match line.excerpt? with
    | none => line.bare hints.command
    | some command => { growth := .command command.column command.text }
  | .choice => line.choiceEffect judge
  | .comment =>
    let comment := line.excerpt?.getD ⟨line.column, ""⟩
    { growth := .leaf comment.column (.comment comment.text) }
  | .jump =>
    match line.excerpt? with
    | none => line.bare hints.jump
    | some key => { growth := .leaf key.column (.jump key.text none) }
  | .back =>
    { diagnostics := line.excerpt?.toList.map fun extra =>
        line.complaint extra.column (.ignoredText extra.text)
      growth := .leaf line.column .back }
  | .text =>
    match line.excerpt? with
    | none => {}
    | some text => { growth := .leaf text.column (.line text.text) }

/-- The ways in which a line can act. Apart from a guarded choice, no line asks anything. -/
inductive Acts (judge : Query → Option Rejection) (taken : String → Option Nat) (line : Line) :
    Effect → Prop
  | nothing (found : List Diagnostic) : Acts judge taken line { diagnostics := found }
  | rejected (found : List Diagnostic) (condition : String) (rejection : Rejection)
      (hjudge : judge (.condition condition) = some rejection) :
      Acts judge taken line { diagnostics := found, asked := [.condition condition] }
  | failed (found : List Diagnostic) (error : ParseError) :
      Acts judge taken line { diagnostics := found, failure := some error }
  | text (text : Excerpt) (hmarker : line.marker = .text) (htext : line.excerpt? = some text) :
      Acts judge taken line { growth := .leaf text.column (.line text.text) }
  | comment (hmarker : line.marker = .comment) :
      Acts judge taken line
        { growth := .leaf (line.excerpt?.getD ⟨line.column, ""⟩).column
            (.comment (line.excerpt?.getD ⟨line.column, ""⟩).text) }
  | jump (key : Excerpt) (hmarker : line.marker = .jump) (hkey : line.excerpt? = some key) :
      Acts judge taken line { growth := .leaf key.column (.jump key.text none) }
  | back (found : List Diagnostic) (hmarker : line.marker = .back) :
      Acts judge taken line { diagnostics := found, growth := .leaf line.column .back }
  | command (text : Excerpt) (hmarker : line.marker = .command)
      (htext : line.excerpt? = some text) :
      Acts judge taken line { growth := .command text.column text.text }
  | choice (text : Excerpt) (hmarker : line.marker = .choice) (htext : line.excerpt? = some text)
      (hplain : Guarded.split? text.text.toList = none) :
      Acts judge taken line { growth := .choice text.column text.text none }
  | guarded (text : Excerpt) (parts : Guarded) (hmarker : line.marker = .choice)
      (htext : line.excerpt? = some text) (hparts : Guarded.split? text.text.toList = some parts)
      (hcondition : parts.condition ≠ "") (hjudge : judge (.condition parts.condition) = none) :
      Acts judge taken line
        { asked := [.condition parts.condition]
          growth := .choice text.column parts.label (some parts.condition) }
  | scope (found : List Diagnostic) (name : Excerpt) (hmarker : line.marker = .scope)
      (hname : line.excerpt? = some name) :
      Acts judge taken line
        { diagnostics := found
          growth := .scope name.column name.text (taken name.text).isNone }

section Acts

variable (options : Options) (judge : Query → Option Rejection) (taken : String → Option Nat)
  (line : Line)

private theorem acts_scopeEffect (hmarker : line.marker = .scope) :
    line.Acts judge taken (line.scopeEffect options taken) := by
  unfold scopeEffect
  split
  · exact .nothing _
  · cases hname : line.excerpt? with
    | none => exact .nothing _
    | some name =>
      have hscope (found : List Diagnostic) := @Acts.scope judge taken line found name hmarker hname
      dsimp only
      cases htaken : taken name.text with
      | none =>
        rw [htaken] at hscope
        exact hscope _
      | some first =>
        cases options.duplicates with
        | fail => exact .failed _ _
        | report =>
          rw [htaken] at hscope
          exact hscope _

private theorem acts_choiceEffect (hmarker : line.marker = .choice) :
    line.Acts judge taken (line.choiceEffect judge) := by
  unfold choiceEffect
  cases htext : line.excerpt? with
  | none => exact .nothing _
  | some text =>
    dsimp only
    cases hparts : Guarded.split? text.text.toList with
    | none => exact .choice text hmarker htext hparts
    | some parts =>
      dsimp only
      unfold guardedEffect
      by_cases hcondition : parts.condition = ""
      · rw [if_pos hcondition]
        exact .nothing _
      · rw [if_neg hcondition]
        cases hjudge : judge (.condition parts.condition) with
        | some rejection => exact .rejected _ _ rejection hjudge
        | none => exact .guarded text parts hmarker htext hparts hcondition hjudge

theorem acts_effect : line.Acts judge taken (line.effect options judge taken) := by
  unfold effect
  cases hmarker : line.marker with
  | scope => exact acts_scopeEffect options judge taken line hmarker
  | command =>
    cases htext : line.excerpt? with
    | none => exact .nothing _
    | some text => exact .command text hmarker htext
  | choice => exact acts_choiceEffect judge taken line hmarker
  | comment => exact .comment hmarker
  | jump =>
    cases hkey : line.excerpt? with
    | none => exact .nothing _
    | some key => exact .jump key hmarker hkey
  | back => exact .back _ hmarker
  | text =>
    cases htext : line.excerpt? with
    | none => exact .nothing []
    | some text => exact .text text hmarker htext

end Acts

end Line

/-- Adds to the innermost open block. A command goes on with the one before it, if that
has no body, and a section closes all blocks. -/
def Draft.grow (draft : Draft) (number : Nat) : Growth → Draft
  | .nothing => draft
  | .leaf column leaf => draft.addLeaf (.single number column) leaf
  | .command column text =>
    match draft.extensible? with
    | some id => draft.extend id number text
    | none => draft.addBlock (.single number column) (.command text)
  | .choice column text condition =>
    draft.addBlock (.single number column) (.choice text condition)
  | .scope column key declared =>
    let opened := draft.addScope (.single number column) key
    if declared then { opened with tree := opened.tree.declare key opened.innermost } else opened

def Growth.links (id number column : Nat) : Growth → List Link
  | leaf _ (.jump key _) => [⟨id, key, number, column⟩]
  | _ => []

def Growth.room (depth : Nat) : Growth → Nat
  | nothing => depth
  | leaf .. => depth
  | command .. => depth + 1
  | choice .. => depth + 1
  | scope .. => 1

def Growth.notices (number : Nat) : Growth → List Notice
  | scope _ key true => [.declared key number]
  | _ => []

namespace Progress

def absorb (progress : Progress) (line : Line) (effect : Effect) : Progress where
  draft := progress.draft.grow line.number effect.growth
  lineCount := progress.lineCount
  links := progress.links ++
    effect.growth.links progress.draft.tree.size line.number line.restColumn
  journal :=
    { diagnostics := progress.journal.diagnostics ++ effect.diagnostics
      asked := progress.journal.asked ++ effect.asked
      log := progress.journal.log ++ effect.growth.notices line.number }
  status := match effect.failure with
    | none => progress.status
    | some error => .failed error

def judge (checker : Checker) (progress : Progress) (query : Query) : Option Rejection :=
  checker.rejects progress.journal.asked query

def taken (progress : Progress) (key : String) : Option Nat :=
  (progress.draft.tree.find? key).map progress.draft.tree.lineOf

section Handlers

variable (options : Options) (checker : Checker) (progress : Progress) (line : Line)

-- Here both sides are compared field by field, so what an effect adds is unfolded throughout.
attribute [local simp] absorb Draft.grow Growth.links Growth.notices

theorem absorb_diagnostics (found : List Diagnostic) :
    progress.absorb line { diagnostics := found } =
      { progress with
        journal.diagnostics := progress.journal.diagnostics ++ found } := by
  simp

theorem reportBare_eq (hint : String) :
    progress.reportBare line hint = progress.absorb line (line.bare hint) := by
  rw [Line.bare, absorb_diagnostics]
  simp [reportBare, report, Journal.report, Line.complaint]

private theorem addCommand_eq (hmarker : line.marker = .command) :
    progress.addCommand line =
      progress.absorb line (line.effect options (progress.judge checker) progress.taken) := by
  simp only [addCommand, Line.effect, hmarker]
  cases line.excerpt? with
  | none => exact reportBare_eq ..
  | some command =>
    cases hid : progress.draft.extensible? <;> simp [hid]

private theorem addText_eq (hmarker : line.marker = .text) :
    progress.addText line =
      progress.absorb line (line.effect options (progress.judge checker) progress.taken) := by
  simp only [addText, Line.effect, hmarker]
  cases line.excerpt? with
  | none => simp
  | some text => simp

private theorem addComment_eq (hmarker : line.marker = .comment) :
    progress.addComment line =
      progress.absorb line (line.effect options (progress.judge checker) progress.taken) := by
  simp [addComment, Line.effect, hmarker]

private theorem addJump_eq (hmarker : line.marker = .jump) :
    progress.addJump line =
      progress.absorb line (line.effect options (progress.judge checker) progress.taken) := by
  simp only [addJump, Line.effect, hmarker]
  cases line.excerpt? with
  | none => exact reportBare_eq ..
  | some key => simp

private theorem addBack_eq (hmarker : line.marker = .back) :
    progress.addBack line =
      progress.absorb line (line.effect options (progress.judge checker) progress.taken) := by
  simp only [addBack, Line.effect, hmarker]
  cases line.excerpt? with
  | none => simp
  | some extra => simp [report, Journal.report, Line.complaint]

private theorem addGuarded_eq (column : Nat) (parts : Guarded) :
    progress.addGuarded checker (.single line.number column) parts =
      progress.absorb line (line.guardedEffect (progress.judge checker) column parts) := by
  unfold addGuarded Line.guardedEffect
  by_cases hempty : parts.condition = ""
  · simp [hempty, report, Journal.report, Line.complaint, Span.single]
  · simp only [if_neg hempty, Journal.ask, judge]
    cases checker.rejects progress.journal.asked (.condition parts.condition) with
    | none => simp
    | some rejection => simp [report, Journal.report, Line.complaint, Span.single]

private theorem addChoice_eq (hmarker : line.marker = .choice) :
    progress.addChoice checker line =
      progress.absorb line (line.effect options (progress.judge checker) progress.taken) := by
  simp only [addChoice, Line.effect, hmarker, Line.choiceEffect]
  cases line.excerpt? with
  | none => exact reportBare_eq ..
  | some choice =>
    dsimp only
    cases Guarded.split? choice.text.toList with
    | none => simp
    | some parts => exact addGuarded_eq ..

private theorem addScope_eq (hmarker : line.marker = .scope) :
    progress.addScope options line =
      progress.absorb line (line.effect options (progress.judge checker) progress.taken) := by
  have hchecked : (if line.depth = 1 then progress
      else progress.report line.number line.column .tooDeep) =
      progress.absorb line { diagnostics := line.misaligned } := by
    rw [absorb_diagnostics, Line.misaligned]
    by_cases hdepth : line.depth = 1
    · simp [hdepth]
    · simp [hdepth, report, Journal.report, Line.complaint]
  simp only [addScope, Line.effect, hmarker, Line.scopeEffect, hchecked]
  by_cases hstrict : line.depth ≠ 1 ∧ options.strictIndentation = true
  · rw [if_pos hstrict, if_pos hstrict]
  · rw [if_neg hstrict, if_neg hstrict]
    cases line.excerpt? with
    | none => simp [reportBare, report, Journal.report, Line.complaint, ← Array.toList_inj]
    | some name =>
      simp only [openScope, absorb_diagnostics, taken]
      cases progress.draft.tree.find? name.text with
      | none => simp [openNamed, note, Journal.note, Span.single]
      | some first =>
        cases options.duplicates with
        | fail => simp [Span.single]
        | report =>
          simp [report, Journal.report, Line.complaint, Span.single, ← Array.toList_inj]

/-- Adding a line is taking in what it does. -/
theorem add_eq :
    progress.add options checker line =
      progress.absorb line (line.effect options (progress.judge checker) progress.taken) := by
  unfold add
  cases hmarker : line.marker with
  | scope => exact addScope_eq options checker progress line hmarker
  | command => exact addCommand_eq options checker progress line hmarker
  | choice => exact addChoice_eq options checker progress line hmarker
  | comment => exact addComment_eq options checker progress line hmarker
  | jump => exact addJump_eq options checker progress line hmarker
  | back => exact addBack_eq options checker progress line hmarker
  | text => exact addText_eq options checker progress line hmarker

end Handlers

end Progress
end Dialogue
