import Dialogue.Parse.Outcome
import Dialogue.Proofs.Parse.Drawing

/-! Readings: what the lines of a script say by themselves. There is no tree and there are no
open blocks; how deep the next line may be, and what has been sketched so far, is all that
counts. A parse follows the reading of its lines. -/
namespace Dialogue

/-- `room` is how deep the next line may be. -/
structure Reading where
  entries : List Entry := [Entry.root]
  room : Nat := 1
  lineCount : Nat := 0
  links : Array Link := #[]
  diagnostics : Array Diagnostic := #[]
  asked : Array Query := #[]

namespace Reading

def taken (reading : Reading) (key : String) : Option Nat :=
  ((Sketch.names reading.entries).lookup key).map (Sketch.lineAt reading.entries)

def judge (checker : Checker) (reading : Reading) (query : Query) : Option Rejection :=
  checker.rejects reading.asked query

def effect (options : Options) (checker : Checker) (reading : Reading) (line : Line) : Effect :=
  line.effect options (reading.judge checker) reading.taken

theorem fits_effect (options : Options) (checker : Checker) (reading : Reading) (line : Line) :
    (reading.effect options checker line).growth.Fits (Sketch.names reading.entries) := by
  unfold effect
  generalize heffect : line.effect options _ _ = effect
  have hacts := line.acts_effect options (reading.judge checker) reading.taken
  rw [heffect] at hacts
  cases hacts with
  | scope =>
    show _ = _
    rw [taken, Option.isNone_map]
  | nothing => trivial
  | rejected => trivial
  | failed => trivial
  | text => rfl
  | comment => rfl
  | jump => rfl
  | back => rfl
  | command => trivial
  | choice => trivial
  | guarded => trivial

def absorb (reading : Reading) (line : Line) (effect : Effect) : Reading where
  entries := Sketch.grow reading.entries line.depth line.number effect.growth
  room := effect.growth.room line.depth
  lineCount := reading.lineCount
  links := reading.links ++
    effect.growth.links reading.entries.length line.number line.restColumn
  diagnostics := reading.diagnostics ++ effect.diagnostics
  asked := reading.asked ++ effect.asked

def place (options : Options) (checker : Checker) (reading : Reading) (line : Line) :
    Except ParseError Reading :=
  if reading.room < line.depth then
    .ok { reading with
      diagnostics := reading.diagnostics.push (line.complaint line.column .tooDeep) }
  else
    match (reading.effect options checker line).failure with
    | some error => .error error
    | none => .ok (reading.absorb line (reading.effect options checker line))

def feed (options : Options) (checker : Checker) (reading : Reading) (text : String) :
    Except ParseError Reading :=
  let counted := { reading with lineCount := reading.lineCount + 1 }
  match Line.read? reading.lineCount text.toList with
  | none => .ok counted
  | some line => counted.place options checker line

def read (options : Options) (checker : Checker) (lines : List String) :
    Except ParseError Reading :=
  lines.foldlM (feed options checker) {}

end Reading

namespace Progress

structure Matches (progress : Progress) (reading : Reading) : Prop where
  running : progress.status = .running
  draft : progress.draft.Matches reading.entries
  room : progress.draft.opened.length = reading.room
  lineCount : progress.lineCount = reading.lineCount
  links : progress.links = reading.links
  diagnostics : progress.journal.diagnostics = reading.diagnostics
  asked : progress.journal.asked = reading.asked

/-- A parse that has failed, or has come as far as a reading. -/
def Keeps (progress : Progress) : Except ParseError Reading → Prop
  | .ok reading => progress.Matches reading
  | .error error => progress.status = .failed error

variable {options : Options} {checker : Checker} {progress : Progress} {reading : Reading}

theorem matches_empty : ({} : Progress).Matches {} :=
  ⟨rfl, Draft.matches_empty, rfl, rfl, rfl, rfl, rfl⟩

theorem taken_eq (h : progress.draft.Matches reading.entries) :
    progress.taken = reading.taken := by
  funext key
  rw [taken, Reading.taken, Tree.find?, h.names]
  exact congrArg (Option.map · _) (funext h.drawn.lineOf)

theorem judge_eq (h : progress.journal.asked = reading.asked) :
    progress.judge checker = reading.judge checker := by
  funext query
  rw [judge, Reading.judge, h]

theorem Matches.absorb {line : Line} (h : progress.Matches { reading with room := line.depth }) :
    (progress.absorb line (reading.effect options checker line)).Keeps
      (match (reading.effect options checker line).failure with
      | some error => .error error
      | none => .ok (reading.absorb line (reading.effect options checker line))) := by
  have hsize : progress.draft.tree.size = reading.entries.length := h.draft.drawn.size_eq
  obtain ⟨hgrown, hroom⟩ := h.draft.grow h.room line.number (reading.fits_effect options checker line)
  cases hfailure : (reading.effect options checker line).failure with
  | some error =>
    show (progress.absorb line _).status = .failed error
    rw [Progress.absorb, hfailure]
  | none =>
    refine ⟨?_, hgrown, hroom, h.lineCount, ?_, ?_, ?_⟩
    · rw [Progress.absorb, hfailure]
      exact h.running
    · rw [Progress.absorb, Reading.absorb, h.links, hsize]
    · rw [Progress.absorb, Reading.absorb, h.diagnostics]
    · rw [Progress.absorb, Reading.absorb, h.asked]

private theorem Matches.place (h : progress.Matches reading) (line : Line) :
    (progress.place options checker line).Keeps (reading.place options checker line) := by
  unfold Progress.place Reading.place
  rw [h.room]
  split
  next hdeep =>
    refine ⟨h.running, h.draft, h.room, h.lineCount, h.links, ?_, h.asked⟩
    show progress.journal.diagnostics.push _ = _
    rw [h.diagnostics]
    rfl
  next hfits =>
    have hpos : 0 < line.depth := Nat.lt_add_right _ Nat.one_pos
    have hdepth : line.depth ≤ progress.draft.opened.length := by
      rw [h.room]
      exact Nat.le_of_not_lt hfits
    obtain ⟨closed, hclosed, hdrawn, hnames, htargets⟩ :=
      Draft.dedent_eq h.draft.drawn h.draft.branch hpos hdepth line.number
    simp only [hclosed]
    generalize hdraft : Draft.mk closed _ = draft
    have hlength : draft.opened.length = line.depth := by
      rw [← hdraft, List.length_drop]
      omega
    have hmatches : draft.Matches reading.entries := by
      rw [← hdraft]
      refine ⟨hdrawn, h.draft.branch.drop ?_, h.draft.regular, hnames.trans h.draft.names,
        fun id => (congrFun htargets id).trans (h.draft.untargeted id)⟩
      omega
    have hdented : ({ progress with draft } : Progress).Matches { reading with room := line.depth } :=
      ⟨h.running, hmatches, hlength, h.lineCount, h.links, h.diagnostics, h.asked⟩
    rw [add_eq, taken_eq hdented.draft, judge_eq hdented.asked]
    exact hdented.absorb

theorem feed_of_running (h : progress.status = .running) (text : String) :
    progress.feed options checker text =
      match Line.read? progress.lineCount text.toList with
      | none => { progress with lineCount := progress.lineCount + 1 }
      | some line => Progress.place options checker (({ progress with
          lineCount := progress.lineCount + 1 } : Progress).note
            (.lineRead line.number line.depth line.marker)) line := by
  cases progress
  cases h
  rfl

theorem Matches.feed (h : progress.Matches reading) (text : String) :
    (progress.feed options checker text).Keeps (reading.feed options checker text) := by
  rw [feed_of_running h.running, Reading.feed, h.lineCount]
  cases Line.read? reading.lineCount text.toList with
  | none => exact ⟨h.running, h.draft, h.room, rfl, h.links, h.diagnostics, h.asked⟩
  | some line =>
    have hcounted : (({ progress with lineCount := reading.lineCount + 1 } : Progress).note
        (.lineRead line.number line.depth line.marker)).Matches
          { reading with lineCount := reading.lineCount + 1 } :=
      ⟨h.running, h.draft, h.room, rfl, h.links, h.diagnostics, h.asked⟩
    exact hcounted.place line

theorem foldl_feed_of_failed {error : ParseError} (h : progress.status = .failed error)
    (lines : List String) : lines.foldl (feed options checker) progress = progress := by
  induction lines with
  | nil => rfl
  | cons text rest ih =>
    have hfeed : progress.feed options checker text = progress := by
      rw [feed, h]
    rw [List.foldl_cons, hfeed, ih]

private theorem Matches.foldl_feed (h : progress.Matches reading) (lines : List String) :
    (lines.foldl (Progress.feed options checker) progress).Keeps
      (lines.foldlM (Reading.feed options checker) reading) := by
  induction lines generalizing progress reading with
  | nil => exact h
  | cons text rest ih =>
    have hfed : (progress.feed options checker text).Keeps (reading.feed options checker text) :=
      h.feed text
    rw [List.foldl_cons, List.foldlM_cons]
    cases hreading : reading.feed options checker text with
    | ok next =>
      rw [hreading] at hfed
      exact ih hfed
    | error error =>
      rw [hreading] at hfed
      show (rest.foldl (Progress.feed options checker) _).status = .failed error
      rw [foldl_feed_of_failed hfed]
      exact hfed

/-- A parse follows the reading of its lines. -/
theorem keeps_read (options : Options) (checker : Checker) (lines : List String) :
    (read options checker lines).Keeps (Reading.read options checker lines) :=
  matches_empty.foldl_feed lines

end Progress
end Dialogue
