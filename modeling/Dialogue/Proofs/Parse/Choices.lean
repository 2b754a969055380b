import Dialogue.Proofs.Line.Regex
import Dialogue.Proofs.Parse.Safety

/-! Choices. A choice line with a text that is not too deep is a plain choice, or it is guarded. The
guard is put to the checker once, unless it is blank, and only if the checker takes it there is a
choice. -/
namespace Dialogue

open Text (isBlank Excerpt)

namespace Progress

/-- The parse when a line that is not too deep is added: the line is counted, and the blocks that
it does not belong to are closed. -/
def arrive (progress : Progress) (line : Line) : Progress :=
  ({ progress with
    draft := progress.draft.shut line.depth line.number
    lineCount := line.number + 1 } : Progress).note
      (.lineRead line.number line.depth line.marker)

def ask (progress : Progress) (query : Query) : Progress :=
  { progress with journal.asked := progress.journal.asked.push query }

def choose (progress : Progress) (span : Span) (text : String) (condition : Option String) :
    Progress :=
  { progress with
    draft := ⟨progress.draft.tree.push progress.draft.innermost
        ⟨span, .block (.choice text condition) []⟩,
      progress.draft.tree.size :: progress.draft.opened⟩ }

variable {options : Options} {checker : Checker} {lines : List String} {line : Line}
  {excerpt : Excerpt} {parts : Guarded} {progress : Progress}

theorem before_succ_of_fits (h : (before options checker lines line.number).status = .running)
    (hat : Line.at? lines line.number = some line)
    (hfits : line.depth ≤ (before options checker lines line.number).draft.opened.length) :
    before options checker lines (line.number + 1) =
      ((before options checker lines line.number).arrive line).add options checker line := by
  obtain ⟨text, htext, hread⟩ := Option.bind_eq_some_iff.mp hat
  obtain ⟨reading, _, hmatches⟩ := exists_matches_of_running h
  have hpos : 0 < line.depth := Nat.lt_add_right _ Nat.one_pos
  have hshut := hmatches.draft.dedent_eq_shut hpos hfits line.number
  rw [before_succ_of_running h htext, hread]
  dsimp only
  rw [place, if_neg (by exact Nat.not_lt.mpr hfits)]
  dsimp only [note]
  rw [hshut]
  rfl

theorem isBlock_innermost_arrive
    (h : (before options checker lines line.number).status = .running)
    (hfits : line.depth ≤ (before options checker lines line.number).draft.opened.length) :
    ((before options checker lines line.number).arrive line).draft.tree.isBlock
      ((before options checker lines line.number).arrive line).draft.innermost = true := by
  obtain ⟨reading, _, hmatches⟩ := exists_matches_of_running h
  have hpos : 0 < line.depth := Nat.lt_add_right _ Nat.one_pos
  obtain ⟨hshut, -⟩ := hmatches.draft.shut hpos hfits line.number
  obtain ⟨below, -, hbranch⟩ := hshut.branch_cons
  exact (hshut.drawn.isBlock _).trans hbranch.isBlockAt_head

def stillOpen (progress : Progress) (line : Line) : List NodeId :=
  progress.draft.opened.drop (progress.draft.opened.length - line.depth)

/-- What is there after a line that adds a choice at most. What it finds and asks follows what was
found and asked before, the blocks further in are closed, and a choice that is added is open itself.
Apart from the log and from the ends of spans nothing else changes. -/
structure Adds (line : Line) (found : List Diagnostic) (asked : List Query) (added : Option Node)
    (progress next : Progress) : Prop where
  diagnostics : next.journal.diagnostics.toList = progress.journal.diagnostics.toList ++ found
  asked : next.journal.asked.toList = progress.journal.asked.toList ++ asked
  size : next.draft.tree.size = progress.draft.tree.size + added.toList.length
  node : next.draft.tree.get? progress.draft.tree.size = added
  mark? : ∀ id < progress.draft.tree.size,
    next.draft.tree.mark? id = progress.draft.tree.mark? id
  children : ∀ id < progress.draft.tree.size, next.draft.tree.children id =
    progress.draft.tree.children id ++ if id = (progress.stillOpen line).headD Tree.root
      then added.toList.map fun _ => progress.draft.tree.size else []
  names : next.draft.tree.names = progress.draft.tree.names
  opened : next.draft.opened =
    (added.toList.map fun _ => progress.draft.tree.size) ++ progress.stillOpen line
  links : next.links = progress.links
  lineCount : next.lineCount = line.number + 1
  status : next.status = progress.status

/-- What a choice line with a text comes to. The pattern of guarded choices is matched with the
text, and what it takes for the guard is put to the checker. -/
structure Chosen (checker : Checker) (line : Line) (excerpt : Excerpt) (progress next : Progress) :
    Prop where
  opened : (progress.arrive line).draft.opened =
    progress.draft.opened.drop (progress.draft.opened.length - line.depth)
  mark? : ∀ id, (progress.arrive line).draft.tree.mark? id = progress.draft.tree.mark? id
  asked : (progress.arrive line).journal.asked = progress.journal.asked
  diagnostics : (progress.arrive line).journal.diagnostics = progress.journal.diagnostics
  plain : (∀ found, ¬ Guarded.pattern.Matches excerpt.text.toList found) →
    next = (progress.arrive line).choose (.single line.number excerpt.column) excerpt.text none ∧
      Adds line [] []
        (some ⟨.single line.number excerpt.column, .block (.choice excerpt.text none) []⟩)
        progress next
  blank : ∀ text guard,
    Guarded.pattern.Matches excerpt.text.toList [("text", text), ("guard", guard)] →
    (∀ c ∈ guard, isBlank c = true) →
    next = (progress.arrive line).report line.number
        (excerpt.column + (text.length + 1 + guard.length)) (.nothingAfter hints.guard) ∧
      Adds line
        [⟨line.number, excerpt.column + (text.length + 1 + guard.length),
          .nothingAfter hints.guard⟩] [] none progress next
  rejected : ∀ text guard rejection,
    Guarded.pattern.Matches excerpt.text.toList [("text", text), ("guard", guard)] →
    (∃ c ∈ guard, isBlank c = false) →
    checker.rejects progress.journal.asked (.condition (String.ofList (Text.trim guard))) =
      some rejection →
    next = ((progress.arrive line).ask (.condition (String.ofList (Text.trim guard)))).report
        line.number (excerpt.column + (text.length + 1 + (guard.takeWhile isBlank).length))
        (.rejectedCondition rejection) ∧
      Adds line
        [⟨line.number, excerpt.column + (text.length + 1 + (guard.takeWhile isBlank).length),
          .rejectedCondition rejection⟩]
        [.condition (String.ofList (Text.trim guard))] none progress next
  accepted : ∀ text guard,
    Guarded.pattern.Matches excerpt.text.toList [("text", text), ("guard", guard)] →
    (∃ c ∈ guard, isBlank c = false) →
    checker.rejects progress.journal.asked (.condition (String.ofList (Text.trim guard))) = none →
    next = ((progress.arrive line).ask (.condition (String.ofList (Text.trim guard)))).choose
        (.single line.number excerpt.column) (String.ofList (Text.trim text))
        (some (String.ofList (Text.trim guard))) ∧
      Adds line [] [.condition (String.ofList (Text.trim guard))]
        (some ⟨.single line.number excerpt.column, .block (.choice (String.ofList (Text.trim text))
          (some (String.ofList (Text.trim guard)))) []⟩) progress next

namespace Adds

variable {found : List Diagnostic} {asked : List Query} {next : Progress}

theorem arrive (progress : Progress) (line : Line) :
    Adds line [] [] none progress (progress.arrive line) := by
  have hmark (id : NodeId) := Draft.mark?_shut progress.draft line.depth line.number id
  have hsize : (progress.draft.shut line.depth line.number).tree.size =
      progress.draft.tree.size := Tree.size_closeEach ..
  constructor
  · exact (List.append_nil _).symm
  · exact (List.append_nil _).symm
  · exact hsize
  · refine Array.getElem?_eq_none ?_
    exact hsize.le
  · exact fun id _ => hmark id
  · intro id _
    refine (Tree.children_closeEach ..).trans ?_
    rw [Option.toList_none, List.map_nil, ite_self, List.append_nil]
  · exact Draft.names_shut ..
  · rfl
  · rfl
  · rfl
  · rfl

private theorem report (h : Adds line found asked none progress next) (number column : Nat)
    (cause : Cause) : Adds line (found ++ [⟨number, column, cause⟩]) asked none progress
      (next.report number column cause) := by
  refine { h with diagnostics := ?_ }
  show (next.journal.diagnostics.push _).toList = _
  rw [Array.toList_push, h.diagnostics, List.append_assoc]

private theorem ask (h : Adds line found asked none progress next) (query : Query) :
    Adds line found (asked ++ [query]) none progress (next.ask query) := by
  refine { h with asked := ?_ }
  show (next.journal.asked.push _).toList = _
  rw [Array.toList_push, h.asked, List.append_assoc]

private theorem choose (h : Adds line found asked none progress next)
    (hinnermost : next.draft.tree.isBlock next.draft.innermost = true) (span : Span)
    (text : String) (condition : Option String) :
    Adds line found asked (some ⟨span, .block (.choice text condition) []⟩) progress
      (next.choose span text condition) := by
  have hsize : next.draft.tree.size = progress.draft.tree.size := h.size
  have hhead : next.draft.innermost = (progress.stillOpen line).headD Tree.root := by
    rw [Draft.innermost, h.opened]
    rfl
  refine { h with size := ?_, node := ?_, mark? := ?_, children := ?_, names := ?_, opened := ?_ }
  · exact (Tree.size_push ..).trans (congrArg (· + 1) hsize)
  · rw [← hsize]
    exact Tree.get?_push_size (Tree.lt_size_of_isBlock hinnermost) _
  · intro id hid
    have hne : id ≠ next.draft.tree.size := hsize ▸ Nat.ne_of_lt hid
    exact (Tree.mark?_push ..).trans ((if_neg hne).trans (h.mark? id hid))
  · intro id hid
    refine (Tree.children_push hinnermost rfl id).trans ?_
    rw [h.children id hid, hhead, hsize, Option.toList_none, List.map_nil, ite_self,
      List.append_nil]
    split
    · rfl
    · exact (List.append_nil _).symm
  · exact (Tree.names_push ..).trans h.names
  · show next.draft.tree.size :: next.draft.opened = _
    rw [h.opened, hsize]
    rfl

end Adds

private theorem addChoice_of_plain (hexcerpt : line.excerpt? = some excerpt)
    (hplain : Guarded.split? excerpt.text.toList = none) :
    progress.addChoice checker line =
      progress.choose (.single line.number excerpt.column) excerpt.text none := by
  simp only [addChoice, hexcerpt, hplain]
  rfl

private theorem addChoice_of_guarded (hexcerpt : line.excerpt? = some excerpt)
    (hparts : Guarded.split? excerpt.text.toList = some parts) :
    progress.addChoice checker line =
      progress.addGuarded checker (.single line.number excerpt.column) parts := by
  simp only [addChoice, hexcerpt, hparts]

section Guard

variable {span : Span} {rejection : Rejection}

private theorem addGuarded_of_blank (hcondition : parts.condition = "") :
    progress.addGuarded checker span parts =
      progress.report span.line (span.column + parts.offset) (.nothingAfter hints.guard) := by
  rw [addGuarded, if_pos hcondition]

private theorem addGuarded_of_rejects (hcondition : parts.condition ≠ "")
    (hrejects : checker.rejects progress.journal.asked (.condition parts.condition) =
      some rejection) :
    progress.addGuarded checker span parts =
      (progress.ask (.condition parts.condition)).report span.line (span.column + parts.offset)
        (.rejectedCondition rejection) := by
  simp only [addGuarded, if_neg hcondition, Journal.ask, hrejects]
  rfl

private theorem addGuarded_of_accepts (hcondition : parts.condition ≠ "")
    (haccepts : checker.rejects progress.journal.asked (.condition parts.condition) = none) :
    progress.addGuarded checker span parts =
      (progress.ask (.condition parts.condition)).choose span parts.label
        (some parts.condition) := by
  simp only [addGuarded, if_neg hcondition, Journal.ask, haccepts]
  rfl

end Guard

/-- Adding a choice line is what the pattern says. -/
theorem chosen_addChoice (hexcerpt : line.excerpt? = some excerpt)
    (hinnermost : (progress.arrive line).draft.tree.isBlock
      (progress.arrive line).draft.innermost = true) :
    Chosen checker line excerpt progress ((progress.arrive line).addChoice checker line) := by
  have hplain (hnone : ∀ found, ¬ Guarded.pattern.Matches excerpt.text.toList found) :
      Guarded.split? excerpt.text.toList = none := by
    rw [← Option.map_eq_none_iff, ← Guarded.captures?_pattern]
    exact Regex.captures?_eq_none_iff.mpr hnone
  have hadd {text guard : List Char} (hmatches : Guarded.pattern.Matches excerpt.text.toList
      [("text", text), ("guard", guard)]) : (progress.arrive line).addChoice checker line =
        (progress.arrive line).addGuarded checker (.single line.number excerpt.column)
          ⟨text, guard⟩ := by
    obtain ⟨parts, hparts, hgroups⟩ := Guarded.matches_pattern_iff.mp hmatches
    have hsame : parts = ⟨text, guard⟩ := Guarded.groups_inj hgroups
    rw [addChoice_of_guarded hexcerpt hparts, hsame]
  have hblank {text guard : List Char} :
      (⟨text, guard⟩ : Guarded).condition = "" ↔ ∀ c ∈ guard, isBlank c = true := by
    rw [Guarded.condition, ← Text.trim_eq_nil_iff]
    exact String.ofList_eq_empty_iff
  have hcondition {text guard : List Char} (hsome : ∃ c ∈ guard, isBlank c = false) :
      (⟨text, guard⟩ : Guarded).condition ≠ "" := by
    obtain ⟨c, hc, hword⟩ := hsome
    exact fun hempty => absurd (hblank.mp hempty c hc) (Bool.eq_false_iff.mp hword)
  constructor
  · rfl
  · exact fun _ => Draft.mark?_shut ..
  · rfl
  · rfl
  · intro hnone
    rw [addChoice_of_plain hexcerpt (hplain hnone)]
    exact ⟨rfl, (Adds.arrive progress line).choose hinnermost _ _ _⟩
  · intro text guard hmatches hall
    rw [hadd hmatches, addGuarded_of_blank (hblank.mpr hall), Guarded.offset,
      List.takeWhile_eq_self_iff.mpr hall]
    exact ⟨rfl, (Adds.arrive progress line).report _ _ _⟩
  · intro text guard rejection hmatches hsome hrejects
    have hnext := (hadd hmatches).trans (addGuarded_of_rejects (hcondition hsome) hrejects)
    refine ⟨hnext, ?_⟩
    rw [hnext]
    exact ((Adds.arrive progress line).ask _).report _ _ _
  · intro text guard hmatches hsome haccepts
    have hnext := (hadd hmatches).trans (addGuarded_of_accepts (hcondition hsome) haccepts)
    refine ⟨hnext, ?_⟩
    rw [hnext]
    exact ((Adds.arrive progress line).ask _).choose hinnermost _ _ _

end Progress

/-- A choice line is recognized by the pattern, and it does what the pattern says. -/
theorem chosen_of_running {options : Options} {checker : Checker} {lines : List String}
    {line : Line} {excerpt : Excerpt}
    (h : (Progress.before options checker lines line.number).status = .running)
    (hat : Line.at? lines line.number = some line)
    (hfits : line.depth ≤
      (Progress.before options checker lines line.number).draft.opened.length)
    (hmarker : line.marker = .choice) (hexcerpt : line.excerpt? = some excerpt) :
    Guarded.Recognized excerpt.text.toList ∧
      Progress.Chosen checker line excerpt (Progress.before options checker lines line.number)
        (Progress.before options checker lines (line.number + 1)) := by
  refine ⟨Guarded.recognized _, ?_⟩
  rw [Progress.before_succ_of_fits h hat hfits, Progress.add, hmarker]
  exact Progress.chosen_addChoice hexcerpt (Progress.isBlock_innermost_arrive h hfits)

/-- The checker is asked about a guard with two number signs in it, and turns it down. -/
theorem chosen_of_rejected_guard :
    let checker : Checker := ⟨fun _ _ => some ⟨"no"⟩⟩
    let lines := ["* one # two#three #"]
    let line : Line := ⟨0, [], .choice, " one # two#three #".toList⟩
    let excerpt : Excerpt := ⟨2, "one # two#three #"⟩
    Line.at? lines 0 = some line ∧ line.excerpt? = some excerpt ∧
      Guarded.Recognized excerpt.text.toList ∧
      Progress.Chosen checker line excerpt (Progress.before {} checker lines 0)
        (Progress.before {} checker lines 1) ∧
      (Progress.before {} checker lines 1).journal.asked = #[.condition "two#three"] := by
  intro checker lines line excerpt
  have hat : Line.at? lines 0 = some line := by decide +kernel
  have hexcerpt : line.excerpt? = some excerpt := by decide +kernel
  have hrunning : (Progress.before {} checker lines 0).status = .running := rfl
  have hfits : line.depth ≤ (Progress.before {} checker lines 0).draft.opened.length := by decide
  obtain ⟨hrecognized, hchosen⟩ := chosen_of_running hrunning hat hfits rfl hexcerpt
  exact ⟨hat, hexcerpt, hrecognized, hchosen, by decide +kernel⟩

end Dialogue
