import Mathlib.Data.List.Forall2
import Dialogue.Parse.Outcome
import Dialogue.Proofs.Parse.Effect
import Dialogue.Proofs.Tree.Relaid

/-! Lines that are alike. They say the same at the same depth, wherever they stand and whatever
blanks they have. Two parses that have been through alike lines do alike with the next ones: what
they hold and report differs in lines and columns only. -/
namespace Dialogue

def Cause.renumbered (renumber : Nat → Nat) : Cause → Cause
  | duplicateScope key firstLine => duplicateScope key (renumber firstLine)
  | cause => cause

def ParseError.renumbered (renumber : Nat → Nat) : ParseError → ParseError
  | duplicateScope key line firstLine =>
    duplicateScope key (renumber line) (renumber firstLine)

def Status.renumbered (renumber : Nat → Nat) : Status → Status
  | failed error => failed (error.renumbered renumber)
  | status => status

structure Diagnostic.Relaid (renumber : Nat → Nat) (diagnostic other : Diagnostic) : Prop where
  line : other.line = renumber diagnostic.line
  cause : other.cause = diagnostic.cause.renumbered renumber

structure Link.Relaid (renumber : Nat → Nat) (link other : Link) : Prop where
  node : other.node = link.node
  key : other.key = link.key
  line : other.line = renumber link.line

inductive Growth.Alike : Growth → Growth → Prop
  | nothing : Alike .nothing .nothing
  | leaf (column second : Nat) (leaf : Leaf) : Alike (.leaf column leaf) (.leaf second leaf)
  | command (column second : Nat) (text : String) :
      Alike (.command column text) (.command second text)
  | choice (column second : Nat) (text : String) (condition : Option String) :
      Alike (.choice column text condition) (.choice second text condition)
  | scope (column second : Nat) (key : String) (declared : Bool) :
      Alike (.scope column key declared) (.scope second key declared)

structure Effect.Relaid (renumber : Nat → Nat) (effect other : Effect) : Prop where
  diagnostics : List.Forall₂ (Diagnostic.Relaid renumber) effect.diagnostics other.diagnostics
  asked : other.asked = effect.asked
  growth : effect.growth.Alike other.growth
  failure : other.failure = effect.failure.map (ParseError.renumbered renumber)

/-- The same indentation in tabs, the same marker, and the same text behind it. -/
structure Line.Alike (line other : Line) : Prop where
  depth : other.depth = line.depth
  marker : other.marker = line.marker
  text : other.excerpt?.map (·.text) = line.excerpt?.map (·.text)

instance (line other : Line) : Decidable (line.Alike other) :=
  decidable_of_iff (other.depth = line.depth ∧ other.marker = line.marker ∧
      other.excerpt?.map (·.text) = line.excerpt?.map (·.text))
    ⟨fun h => ⟨h.1, h.2.1, h.2.2⟩, fun h => ⟨h.depth, h.marker, h.text⟩⟩

structure Line.Relaid (renumber : Nat → Nat) (line other : Line) : Prop extends
    line.Alike other where
  number : other.number = renumber line.number

variable {renumber : Nat → Nat}

namespace Line

variable {line other : Line} {options : Options} {judge : Query → Option Rejection}
  {taken others : String → Option Nat}

theorem Alike.excerpt?_cases (h : line.Alike other) :
    (line.excerpt? = none ∧ other.excerpt? = none) ∨
    ∃ text column second, line.excerpt? = some ⟨column, text⟩ ∧
      other.excerpt? = some ⟨second, text⟩ := by
  have htext := h.text
  cases hline : line.excerpt? with
  | none =>
    rw [hline] at htext
    exact .inl ⟨rfl, Option.map_eq_none_iff.mp htext⟩
  | some excerpt =>
    rw [hline] at htext
    obtain ⟨⟨second, _⟩, hother, rfl⟩ := Option.map_eq_some_iff.mp htext
    exact .inr ⟨excerpt.text, excerpt.column, second, rfl, hother⟩

namespace Relaid

theorem complaint (h : line.Relaid renumber other) (column second : Nat) (cause : Cause) :
    (line.complaint column cause).Relaid renumber
      (other.complaint second (cause.renumbered renumber)) :=
  ⟨h.number, rfl⟩

private theorem misaligned (h : line.Relaid renumber other) :
    List.Forall₂ (Diagnostic.Relaid renumber) line.misaligned other.misaligned := by
  rw [Line.misaligned, Line.misaligned, h.depth]
  split
  · exact .nil
  · exact .cons (h.complaint _ _ .tooDeep) .nil

theorem bare (h : line.Relaid renumber other) (hint : String) :
    (line.bare hint).Relaid renumber (other.bare hint) :=
  ⟨.cons (h.complaint _ _ (.nothingAfter hint)) .nil, rfl, .nothing, rfl⟩

private theorem scopeEffect (h : line.Relaid renumber other)
    (htaken : ∀ key, others key = (taken key).map renumber) :
    (line.scopeEffect options taken).Relaid renumber (other.scopeEffect options others) := by
  have hmisaligned := h.misaligned
  rw [Line.scopeEffect, Line.scopeEffect, h.depth]
  split
  · exact ⟨hmisaligned, rfl, .nothing, rfl⟩
  · rcases h.excerpt?_cases with ⟨hline, hother⟩ | ⟨key, column, second, hline, hother⟩
    · rw [hline, hother]
      exact ⟨List.rel_append hmisaligned (.cons (h.complaint _ _ (.nothingAfter _)) .nil), rfl,
        .nothing, rfl⟩
    · rw [hline, hother]
      dsimp only
      rw [htaken]
      cases taken key with
      | none => exact ⟨hmisaligned, rfl, .scope .., rfl⟩
      | some first =>
        cases options.duplicates with
        | fail =>
          refine ⟨hmisaligned, rfl, .nothing, ?_⟩
          show some _ = some _
          rw [h.number]
          rfl
        | report =>
          exact ⟨List.rel_append hmisaligned
            (.cons (h.complaint _ _ (.duplicateScope key first)) .nil), rfl, .scope .., rfl⟩

private theorem choiceEffect (h : line.Relaid renumber other) :
    (line.choiceEffect judge).Relaid renumber (other.choiceEffect judge) := by
  rw [Line.choiceEffect, Line.choiceEffect]
  rcases h.excerpt?_cases with ⟨hline, hother⟩ | ⟨text, column, second, hline, hother⟩
  · rw [hline, hother]
    exact h.bare _
  · rw [hline, hother]
    dsimp only
    cases Guarded.split? text.toList with
    | none => exact ⟨.nil, rfl, .choice .., rfl⟩
    | some parts =>
      simp only [guardedEffect]
      split
      · exact ⟨.cons (h.complaint _ _ (.nothingAfter _)) .nil, rfl, .nothing, rfl⟩
      · cases judge (.condition parts.condition) with
        | none => exact ⟨.nil, rfl, .choice .., rfl⟩
        | some rejection =>
          exact ⟨.cons (h.complaint _ _ (.rejectedCondition rejection)) .nil, rfl, .nothing, rfl⟩

theorem effect (h : line.Relaid renumber other)
    (htaken : ∀ key, others key = (taken key).map renumber) :
    (line.effect options judge taken).Relaid renumber (other.effect options judge others) := by
  rw [Line.effect, Line.effect, h.marker]
  cases line.marker with
  | scope => exact h.scopeEffect htaken
  | choice => exact h.choiceEffect
  | command =>
    rcases h.excerpt?_cases with ⟨hline, hother⟩ | ⟨text, column, second, hline, hother⟩
    · rw [hline, hother]
      exact h.bare _
    · rw [hline, hother]
      exact ⟨.nil, rfl, .command .., rfl⟩
  | comment =>
    rcases h.excerpt?_cases with ⟨hline, hother⟩ | ⟨text, column, second, hline, hother⟩
    · rw [hline, hother]
      exact ⟨.nil, rfl, .leaf .., rfl⟩
    · rw [hline, hother]
      exact ⟨.nil, rfl, .leaf .., rfl⟩
  | jump =>
    rcases h.excerpt?_cases with ⟨hline, hother⟩ | ⟨text, column, second, hline, hother⟩
    · rw [hline, hother]
      exact h.bare _
    · rw [hline, hother]
      exact ⟨.nil, rfl, .leaf .., rfl⟩
  | back =>
    rcases h.excerpt?_cases with ⟨hline, hother⟩ | ⟨text, column, second, hline, hother⟩
    · rw [hline, hother]
      exact ⟨.nil, rfl, .leaf .., rfl⟩
    · rw [hline, hother]
      exact ⟨.cons (h.complaint _ _ (.ignoredText text)) .nil, rfl, .leaf .., rfl⟩
  | text =>
    rcases h.excerpt?_cases with ⟨hline, hother⟩ | ⟨text, column, second, hline, hother⟩
    · rw [hline, hother]
      exact ⟨.nil, rfl, .nothing, rfl⟩
    · rw [hline, hother]
      exact ⟨.nil, rfl, .leaf .., rfl⟩

end Relaid
end Line

private theorem Growth.Alike.links {growth other : Growth} (h : growth.Alike other)
    (id number column second : Nat) :
    List.Forall₂ (Link.Relaid renumber) (growth.links id number column)
      (other.links id (renumber number) second) := by
  cases h with
  | leaf _ _ leaf =>
    cases leaf with
    | jump => exact .cons ⟨rfl, rfl, rfl⟩ .nil
    | _ => exact .nil
  | _ => exact .nil

/-- What alike lines add to drafts that differ in their layout. -/
theorem Draft.Relaid.grow {draft other : Draft} {growth more : Growth}
    (h : draft.Relaid renumber other) (hgrowth : growth.Alike more) (number : Nat) :
    (draft.grow number growth).Relaid renumber (other.grow (renumber number) more) := by
  cases hgrowth with
  | nothing => exact h
  | leaf => exact h.addLeaf ..
  | choice => exact h.addBlock ..
  | command =>
    simp only [Draft.grow, h.extensible?]
    cases draft.extensible? with
    | none => exact h.addBlock ..
    | some id => exact h.extend ..
  | scope column second key declared =>
    have hadded := h.addScope number column second key
    cases declared with
    | false => exact hadded
    | true =>
      have hclosed := (h.closeAll number).tree
      refine ⟨hadded.opened, ?_⟩
      simp only [Draft.grow, if_true, hadded.innermost]
      refine hadded.tree.declare key ⟨Nat.ne_of_gt hclosed.size_pos, ?_⟩
      rw [Draft.addScope, Tree.size_push]
      exact Nat.lt_succ_self _

namespace Progress

/-- Two parses that have been through alike lines. -/
structure Relaid (renumber : Nat → Nat) (progress other : Progress) : Prop where
  draft : progress.draft.Relaid renumber other.draft
  links : List.Forall₂ (Link.Relaid renumber) progress.links.toList other.links.toList
  diagnostics : List.Forall₂ (Diagnostic.Relaid renumber) progress.journal.diagnostics.toList
    other.journal.diagnostics.toList
  asked : other.journal.asked = progress.journal.asked
  status : other.status = progress.status.renumbered renumber

namespace Relaid

variable {options : Options} {checker : Checker} {progress other : Progress} {line more : Line}
  {effect second : Effect}

theorem empty : ({} : Progress).Relaid renumber {} := ⟨.empty, .nil, .nil, rfl, rfl⟩

private theorem report (h : progress.Relaid renumber other) (hline : line.Relaid renumber more)
    (cause : Cause) :
    (progress.report line.number line.column cause).Relaid renumber
      (other.report more.number more.column (cause.renumbered renumber)) := by
  refine ⟨h.draft, h.links, ?_, h.asked, h.status⟩
  simp only [Progress.report, Journal.report, Array.toList_push]
  exact List.rel_append h.diagnostics (.cons (hline.complaint _ _ cause) .nil)

theorem running_iff (h : progress.Relaid renumber other) :
    other.status = .running ↔ progress.status = .running := by
  rw [h.status]
  cases progress.status with
  | failed => exact iff_of_false nofun nofun
  | _ => exact Iff.rfl

theorem taken (h : progress.draft.Relaid renumber other.draft) (key : String) :
    other.taken key = (progress.taken key).map renumber := by
  rw [Progress.taken, Progress.taken, h.tree.find?]
  cases hfind : progress.draft.tree.find? key with
  | none => rfl
  | some id =>
    obtain ⟨before, after, hnames, _⟩ := List.lookup_eq_some_iff.mp hfind
    have hmem : (key, id) ∈ progress.draft.tree.names := by
      rw [hnames]
      exact List.mem_append_right _ List.mem_cons_self
    obtain ⟨hne, hid⟩ := h.tree.named _ hmem
    exact congrArg some (h.tree.lineOf hid hne)

private theorem absorb (h : progress.Relaid renumber other) (hline : line.Relaid renumber more)
    (heffect : effect.Relaid renumber second) :
    (progress.absorb line effect).Relaid renumber (other.absorb more second) := by
  refine ⟨?_, ?_, ?_, ?_, ?_⟩
  · rw [Progress.absorb, Progress.absorb, hline.number]
    exact h.draft.grow heffect.growth line.number
  · simp only [Progress.absorb, Array.toList_appendList, hline.number, h.draft.tree.size]
    exact List.rel_append h.links (heffect.growth.links _ _ _ _)
  · simp only [Progress.absorb, Array.toList_appendList]
    exact List.rel_append h.diagnostics heffect.diagnostics
  · rw [Progress.absorb, Progress.absorb, h.asked, heffect.asked]
  · simp only [Progress.absorb, heffect.failure]
    cases effect.failure with
    | none => exact h.status
    | some error => rfl

theorem place (h : progress.Relaid renumber other) (hline : line.Relaid renumber more) :
    (progress.place options checker line).Relaid renumber (other.place options checker more) := by
  rw [Progress.place, Progress.place, h.draft.opened, hline.depth]
  split
  · exact h.report hline .tooDeep
  · obtain ⟨hdone, hdraft⟩ := Draft.Relaid.dedent h.draft.tree line.depth line.number
    rw [hline.number]
    generalize Draft.dedent line.depth line.number progress.draft.tree progress.draft.opened =
      reached at hdone hdraft
    generalize Draft.dedent line.depth (renumber line.number) other.draft.tree
      progress.draft.opened = image at hdone hdraft
    obtain ⟨_, draft⟩ := reached
    obtain ⟨done, second⟩ := image
    obtain rfl := hdone
    cases done with
    | true =>
      have hdented : Relaid renumber { progress with draft } { other with draft := second } :=
        ⟨hdraft, h.links, h.diagnostics, h.asked, h.status⟩
      have hjudge : Progress.judge checker { other with draft := second } =
          Progress.judge checker { progress with draft } := by
        funext query
        rw [judge, judge, h.asked]
      dsimp only
      rw [add_eq, add_eq, hjudge]
      exact hdented.absorb hline (hline.effect (taken hdraft))
    | false =>
      have hstopped : Relaid renumber
          ({ progress with draft, status := .stopped }.note (.invalidDedent line.number))
          ({ other with draft := second, status := .stopped }.note
            (.invalidDedent (renumber line.number))) :=
        ⟨hdraft, h.links, h.diagnostics, h.asked, rfl⟩
      have hreported := hstopped.report hline .invalidDedent
      rw [hline.number] at hreported
      exact hreported

end Relaid
end Progress
end Dialogue
