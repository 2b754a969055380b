import Dialogue.Proofs.Parse.Scripts

/-! Stages: how far a parse has come when it gets to a line. What a line does shows in the
stage before it and the stage after it. -/
namespace Dialogue

def Line.at? (lines : List String) (i : Nat) : Option Line :=
  lines[i]?.bind fun text => read? i text.toList

theorem Line.number_of_read? {i : Nat} {text : List Char} {line : Line}
    (h : read? i text = some line) : line.number = i := by
  unfold read? at h
  split at h
  · contradiction
  · rw [← Option.some.inj h]

theorem Line.number_of_at? {lines : List String} {i : Nat} {line : Line}
    (h : at? lines i = some line) : line.number = i := by
  obtain ⟨text, _, hread⟩ := Option.bind_eq_some_iff.mp h
  exact number_of_read? hread

theorem Line.lt_length_of_at? {lines : List String} {i : Nat} {line : Line}
    (h : at? lines i = some line) : i < lines.length := by
  obtain ⟨text, htext, _⟩ := Option.bind_eq_some_iff.mp h
  exact (List.getElem?_eq_some_iff.mp htext).1

namespace Sketch

/-- A sketch that came out of another one. Only the texts of its commands may differ. -/
structure Continues (entries more : List Entry) : Prop where
  length_le : entries.length ≤ more.length
  levelAt : ∀ id < entries.length, levelAt more id = levelAt entries id
  lineAt : ∀ id < entries.length, lineAt more id = lineAt entries id
  isScopeAt : ∀ id < entries.length, isScopeAt more id = isScopeAt entries id
  isBlockAt : ∀ id < entries.length, isBlockAt more id = isBlockAt entries id

namespace Continues

variable {entries more last : List Entry}

theorem refl (entries : List Entry) : Continues entries entries :=
  ⟨Nat.le_refl _, fun _ _ => rfl, fun _ _ => rfl, fun _ _ => rfl, fun _ _ => rfl⟩

private theorem trans (h : Continues entries more) (hmore : Continues more last) :
    Continues entries last := by
  have hle := h.length_le
  refine ⟨Nat.le_trans hle hmore.length_le, fun id hid => ?_, fun id hid => ?_, fun id hid => ?_,
    fun id hid => ?_⟩
  · rw [hmore.levelAt id (by omega), h.levelAt id hid]
  · rw [hmore.lineAt id (by omega), h.lineAt id hid]
  · rw [hmore.isScopeAt id (by omega), h.isScopeAt id hid]
  · rw [hmore.isBlockAt id (by omega), h.isBlockAt id hid]

end Continues

theorem lineAt_append {entries more : List Entry} {id : Nat} (h : id < entries.length) :
    lineAt (entries ++ more) id = lineAt entries id := by
  rw [lineAt, lineAt, List.getElem?_append_left h]

theorem lineAt_extend (entries : List Entry) (id : Nat) (text : String) (other : Nat) :
    lineAt (entries.modify id (Entry.extend text)) other = lineAt entries other := by
  rw [lineAt, lineAt, getElem?_extend]
  split
  · rw [Option.map_map]
    rfl
  · rfl

private theorem continues_append (entries more : List Entry) :
    Continues entries (entries ++ more) := by
  refine ⟨by simp, fun id hid => ?_, fun id hid => ?_, fun id hid => ?_, fun id hid => ?_⟩
  · exact levelAt_append hid
  · exact lineAt_append hid
  · exact isScopeAt_append hid
  · exact isBlockAt_append hid

private theorem continues_extend (entries : List Entry) (id : Nat) (text : String) :
    Continues entries (entries.modify id (Entry.extend text)) := by
  refine ⟨by simp, fun other _ => ?_, fun other _ => ?_, fun other _ => ?_, fun other _ => ?_⟩
  · exact levelAt_extend ..
  · exact lineAt_extend ..
  · exact isScopeAt_extend ..
  · exact isBlockAt_extend ..

private theorem continues_grow (entries : List Entry) (depth number : Nat) (growth : Growth) :
    Continues entries (grow entries depth number growth) := by
  cases growth with
  | nothing => exact .refl entries
  | leaf => exact continues_append ..
  | choice => exact continues_append ..
  | scope => exact continues_append ..
  | command column text =>
    simp only [grow]
    split
    · exact continues_extend ..
    · exact continues_append ..

end Sketch

namespace Reading

/-- What the lines before a line come to. -/
def stage (options : Options) (checker : Checker) (lines : List String) (i : Nat) : Reading :=
  ((read options checker (lines.take i)).toOption).getD {}

variable {options : Options} {checker : Checker} {lines : List String} {reading : Reading}
  {i j : Nat}

theorem read_take (h : read options checker lines = .ok reading) (i : Nat) :
    read options checker (lines.take i) = .ok (stage options checker lines i) := by
  have hsplit : (read options checker (lines.take i) >>= fun before =>
      (lines.drop i).foldlM (feed options checker) before) = .ok reading := by
    rw [← h, read, read, ← List.foldlM_append, List.take_append_drop]
  unfold stage
  cases hread : read options checker (lines.take i) with
  | ok before => rfl
  | error error =>
    rw [hread] at hsplit
    contradiction

theorem stage_length (h : read options checker lines = .ok reading) :
    stage options checker lines lines.length = reading := by
  have hread := read_take h lines.length
  rw [List.take_length, h] at hread
  exact (Except.ok.inj hread).symm

theorem feed_stage (h : read options checker lines = .ok reading) {text : String}
    (htext : lines[i]? = some text) :
    (stage options checker lines i).feed options checker text =
      .ok (stage options checker lines (i + 1)) := by
  have hread := read_take h (i + 1)
  have hbefore := read_take h i
  rw [read] at hbefore
  rw [List.take_add_one, htext, read, List.foldlM_append, hbefore] at hread
  change ((stage options checker lines i).feed options checker text >>= pure) = _ at hread
  rwa [bind_pure] at hread

theorem lineCount_stage (h : read options checker lines = .ok reading) (hi : i ≤ lines.length) :
    (stage options checker lines i).lineCount = i := by
  induction i with
  | zero => rfl
  | succ i ih =>
    have hcount := ih (Nat.le_of_succ_le hi)
    have hfeed := feed_stage h (List.getElem?_eq_getElem hi)
    rcases feed_cases hfeed with ⟨_, hnext⟩ | ⟨line, _, ⟨_, hnext⟩ | ⟨_, _, hnext⟩⟩
    all_goals
      rw [hnext]
      exact congrArg (· + 1) hcount

theorem lineCount_of_read (h : read options checker lines = .ok reading) :
    reading.lineCount = lines.length := by
  rw [← stage_length h]
  exact lineCount_stage h (Nat.le_refl _)

/-- What a line does to the stage that it finds. -/
theorem stage_cases (h : read options checker lines = .ok reading) (hi : i < lines.length) :
    (Line.at? lines i = none ∧
      stage options checker lines (i + 1) =
        { stage options checker lines i with lineCount := i + 1 }) ∨
    ∃ line, Line.at? lines i = some line ∧
      (((stage options checker lines i).room < line.depth ∧
        stage options checker lines (i + 1) =
          { stage options checker lines i with
            lineCount := i + 1
            diagnostics := (stage options checker lines i).diagnostics.push
              (line.complaint line.column .tooDeep) }) ∨
      (line.depth ≤ (stage options checker lines i).room ∧
        stage options checker lines (i + 1) =
          { stage options checker lines i with lineCount := i + 1 }.absorb line
            ((stage options checker lines i).effect options checker line))) := by
  have hcount := lineCount_stage h (Nat.le_of_lt hi)
  have htext : lines[i]? = some lines[i] := List.getElem?_eq_getElem hi
  have hat : Line.at? lines i = Line.read? i lines[i].toList := by
    rw [Line.at?, htext, Option.bind_some]
  have hcases := feed_cases (feed_stage h htext)
  rw [hcount] at hcases
  rw [hat]
  rcases hcases with hblank | ⟨line, hline, hdeep | ⟨hfits, _, hnext⟩⟩
  · exact .inl hblank
  · exact .inr ⟨line, hline, .inl hdeep⟩
  · exact .inr ⟨line, hline, .inr ⟨hfits, hnext⟩⟩

/-- Nodes that are there stay as they are, but for the texts of commands. -/
theorem continues_stage (h : read options checker lines = .ok reading) (hij : i ≤ j)
    (hj : j ≤ lines.length) :
    Sketch.Continues (stage options checker lines i).entries
      (stage options checker lines j).entries := by
  induction j with
  | zero =>
    obtain rfl := Nat.le_zero.mp hij
    exact .refl _
  | succ j ih =>
    rcases Nat.lt_or_eq_of_le hij with hlt | rfl
    · have hbefore := ih (Nat.le_of_lt_succ hlt) (Nat.le_of_succ_le hj)
      refine hbefore.trans ?_
      rcases stage_cases h hj with ⟨_, hnext⟩ | ⟨line, _, ⟨_, hnext⟩ | ⟨_, hnext⟩⟩
      · rw [hnext]
        exact .refl _
      · rw [hnext]
        exact .refl _
      · rw [hnext]
        exact Sketch.continues_grow ..
    · exact .refl _

end Reading

namespace Progress

variable (options : Options) (checker : Checker) (lines : List String)

/-- The parse of the lines before a line. -/
def before (i : Nat) : Progress := read options checker (lines.take i)

def growthOf (line : Line) : Growth :=
  let progress := before options checker lines line.number
  (line.effect options (progress.judge checker) progress.taken).growth

/-- How deep a line may be, from the lines before it alone. A blank line and a line that is
too deep leave this as it is. -/
def room : Nat → Nat
  | 0 => 1
  | i + 1 =>
    match Line.at? lines i with
    | none => room i
    | some line =>
      if room i < line.depth then room i
      else (growthOf options checker lines line).room line.depth

/-- A line of the script that is not too deep. -/
structure Admits (line : Line) : Prop where
  at? : Line.at? lines line.number = some line
  depth_le : line.depth ≤ room options checker lines line.number

structure Creates (line : Line) (id : NodeId) : Prop where
  size_le : (before options checker lines line.number).draft.tree.size ≤ id
  lt_size : id < (before options checker lines (line.number + 1)).draft.tree.size

/-- A command or a choice that the line adds, or a command that it goes on with. -/
structure Opens (line : Line) (id : NodeId) : Prop where
  isBlock : (before options checker lines (line.number + 1)).draft.tree.isBlock id = true
  isScope : (before options checker lines (line.number + 1)).draft.tree.isScope id = false
  label?_ne : (before options checker lines (line.number + 1)).draft.tree.label? id ≠
    (before options checker lines line.number).draft.tree.label? id

variable {options checker lines} {reading : Reading}

theorem matches_stage (h : Reading.read options checker lines = .ok reading) (i : Nat) :
    (before options checker lines i).Matches (Reading.stage options checker lines i) := by
  have hkeeps := keeps_read options checker (lines.take i)
  rw [Reading.read_take h] at hkeeps
  exact hkeeps

private theorem growthOf_eq (h : Reading.read options checker lines = .ok reading) (line : Line) :
    growthOf options checker lines line =
      ((Reading.stage options checker lines line.number).effect options checker line).growth := by
  have hmatches := matches_stage h line.number
  rw [growthOf, judge_eq hmatches.asked, taken_eq hmatches.draft]
  rfl

theorem room_eq (h : Reading.read options checker lines = .ok reading) {i : Nat}
    (hi : i ≤ lines.length) :
    room options checker lines i = (Reading.stage options checker lines i).room := by
  induction i with
  | zero => rfl
  | succ i ih =>
    have hroom := ih (Nat.le_of_succ_le hi)
    rw [room]
    rcases Reading.stage_cases h hi with ⟨hat, hnext⟩ | ⟨line, hat, ⟨hdeep, hnext⟩ | ⟨hfits, hnext⟩⟩
    · rw [hat, hnext]
      exact hroom
    · rw [hat, hnext]
      simp only [hroom, if_pos hdeep]
    · rw [hat, hnext]
      simp only [hroom, if_neg (Nat.not_lt.mpr hfits), growthOf_eq h, Line.number_of_at? hat]
      rfl

theorem before_succ {i : Nat} {text : String} (htext : lines[i]? = some text) :
    before options checker lines (i + 1) =
      (before options checker lines i).feed options checker text := by
  rw [before, List.take_add_one, htext, read, List.foldl_append]
  rfl

theorem before_succ_of_deep (h : Reading.read options checker lines = .ok reading) {line : Line}
    (hat : Line.at? lines line.number = some line)
    (hdeep : room options checker lines line.number < line.depth) :
    (before options checker lines (line.number + 1)).draft =
        (before options checker lines line.number).draft ∧
      (before options checker lines (line.number + 1)).journal.asked =
        (before options checker lines line.number).journal.asked := by
  have hlt := Nat.le_of_lt (Line.lt_length_of_at? hat)
  have hmatches := matches_stage h line.number
  have hcount := hmatches.lineCount.trans (Reading.lineCount_stage h hlt)
  have hopened := hmatches.room.trans (room_eq h hlt).symm
  obtain ⟨text, htext, hread⟩ := Option.bind_eq_some_iff.mp hat
  rw [before_succ htext, feed, hmatches.running, hcount]
  simp only [hread, place]
  rw [if_pos (by exact Nat.lt_of_le_of_lt (Nat.le_of_eq hopened) hdeep)]
  exact ⟨rfl, rfl⟩

theorem length_opened_before (h : Reading.read options checker lines = .ok reading) {i : Nat}
    (hi : i ≤ lines.length) :
    (before options checker lines i).draft.opened.length = room options checker lines i :=
  (matches_stage h i).room.trans (room_eq h hi).symm

theorem lineCount_before {i : Nat} (hi : i ≤ lines.length)
    (hrunning : (before options checker lines i).status = .running) :
    (before options checker lines i).lineCount = i := by
  have hkeeps := keeps_read options checker (lines.take i)
  rw [← before] at hkeeps
  cases hread : Reading.read options checker (lines.take i) with
  | error error =>
    rw [hread] at hkeeps
    exact absurd (hrunning.symm.trans hkeeps) nofun
  | ok reading =>
    rw [hread] at hkeeps
    have hcount := Reading.lineCount_of_read hread
    rw [List.length_take_of_le hi] at hcount
    exact (Matches.lineCount hkeeps).trans hcount

end Progress
end Dialogue
