import Dialogue.Proofs.Parse.Stages
import Dialogue.Proofs.Tree.Stop

/-! Feeding a line. A line that is not too deep closes the blocks further in and then does what
its effect says, on the very tree that is left. -/
namespace Dialogue
namespace Draft

@[simp] theorem mark?_shut (draft : Draft) (depth line : Nat) (id : NodeId) :
    (draft.shut depth line).tree.mark? id = draft.tree.mark? id :=
  Tree.mark?_closeEach ..

@[simp] theorem names_shut (draft : Draft) (depth line : Nat) :
    (draft.shut depth line).tree.names = draft.tree.names :=
  Tree.names_closeEach ..

theorem Matches.shut {draft : Draft} {entries : List Entry} (h : draft.Matches entries)
    {depth : Nat} (hpos : 0 < depth) (hdepth : depth ≤ draft.opened.length) (line : Nat) :
    (draft.shut depth line).Matches entries ∧ (draft.shut depth line).opened.length = depth := by
  have hlt : draft.opened.length - depth < draft.opened.length := by omega
  refine ⟨⟨?_, h.branch.drop hlt, h.regular, ?_, fun id => ?_⟩, ?_⟩
  · exact h.drawn.congr (Tree.size_closeEach ..) (Tree.children_closeEach _ _ _)
      (Tree.mark?_closeEach _ _ _)
  · exact (names_shut ..).trans h.names
  · exact (Tree.target?_closeEach ..).trans (h.untargeted id)
  · show (draft.opened.drop _).length = depth
    rw [List.length_drop]
    omega

theorem Matches.dedent_eq_shut {draft : Draft} {entries : List Entry} (h : draft.Matches entries)
    {depth : Nat} (hpos : 0 < depth) (hdepth : depth ≤ draft.opened.length) (line : Nat) :
    dedent depth line draft.tree draft.opened = (true, draft.shut depth line) := by
  obtain ⟨closed, hclosed, _⟩ := dedent_eq h.drawn h.branch hpos hdepth line
  have hdone : (dedent depth line draft.tree draft.opened).1 = true := by rw [hclosed]
  exact Prod.ext hdone (Draft.dedent_eq_shut hdone)

end Draft

namespace Progress

variable {options : Options} {checker : Checker} {lines : List String} {progress : Progress}
  {reading next : Reading} {line : Line} {text : String} {i : Nat}

theorem taken_shut (progress : Progress) (depth number : Nat) :
    ({ progress with draft := progress.draft.shut depth number } : Progress).taken =
      progress.taken := by
  funext key
  have hline : (progress.draft.shut depth number).tree.lineOf = progress.draft.tree.lineOf :=
    funext fun id => Tree.lineOf_congr (Draft.mark?_shut ..)
  rw [taken, taken, Tree.find?, Draft.names_shut, hline]
  rfl

theorem Matches.place_eq (h : progress.Matches reading)
    (hfits : line.depth ≤ progress.draft.opened.length) :
    progress.place options checker line =
      ({ progress with draft := progress.draft.shut line.depth line.number } : Progress).absorb line
        (line.effect options (progress.judge checker) progress.taken) := by
  have hpos : 0 < line.depth := Nat.lt_add_right _ Nat.one_pos
  rw [Progress.place, if_neg (Nat.not_lt.mpr hfits), h.draft.dedent_eq_shut hpos hfits]
  dsimp only
  rw [add_eq, taken_shut]
  rfl

theorem Matches.draft_feed (h : progress.Matches reading) (text : String) :
    (progress.feed options checker text).draft =
      match Line.read? reading.lineCount text.toList with
      | none => progress.draft
      | some line =>
        if reading.room < line.depth then progress.draft
        else (progress.draft.shut line.depth line.number).grow line.number
          (reading.effect options checker line).growth := by
  rw [feed_of_running h.running, h.lineCount]
  cases Line.read? reading.lineCount text.toList with
  | none => rfl
  | some line =>
    have hnoted : (({ progress with lineCount := reading.lineCount + 1 } : Progress).note
        (.lineRead line.number line.depth line.marker)).Matches
          { reading with lineCount := reading.lineCount + 1 } :=
      ⟨h.running, h.draft, h.room, rfl, h.links, h.diagnostics, h.asked⟩
    dsimp only
    split
    next hdeep =>
      rw [Progress.place, if_pos (by exact h.room ▸ hdeep)]
      rfl
    next hfits =>
      rw [hnoted.place_eq (h.room ▸ Nat.le_of_not_lt hfits), taken_eq hnoted.draft,
        judge_eq hnoted.asked]
      rfl

/-- The next line leaves the draft as it is, or it closes inner blocks and adds what it adds. -/
theorem draft_before_succ (h : Reading.read options checker lines = .ok reading)
    (hi : i < lines.length) :
    (before options checker lines (i + 1)).draft = (before options checker lines i).draft ∨
      ∃ depth growth, 0 < depth ∧
        depth ≤ (before options checker lines i).draft.opened.length ∧
        (before options checker lines (i + 1)).draft =
          ((before options checker lines i).draft.shut depth i).grow i growth := by
  have hmatches := matches_stage h i
  have hcount := Reading.lineCount_stage h (Nat.le_of_lt hi)
  rw [before_succ (List.getElem?_eq_getElem hi), hmatches.draft_feed]
  cases hline : Line.read? (Reading.stage options checker lines i).lineCount lines[i].toList with
  | none => exact .inl rfl
  | some line =>
    dsimp only
    split
    next => exact .inl rfl
    next hfits =>
      obtain rfl : line.number = i := (Line.number_of_read? hline).trans hcount
      have hpos : 0 < line.depth := Nat.lt_add_right _ Nat.one_pos
      exact .inr ⟨line.depth, _, hpos, hmatches.room ▸ Nat.le_of_not_lt hfits, rfl⟩

end Progress
end Dialogue
