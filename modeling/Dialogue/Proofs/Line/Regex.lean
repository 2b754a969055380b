import Mathlib.Data.List.Basic
import Dialogue.Proofs.Line.Places

/-! Patterns with named groups. A pattern is tried at the start of a text, and a repetition takes
as much as it can before it gives anything back. The pattern of a guarded choice takes a text apart
in one way at most, which is where the text is cut. -/
namespace Dialogue

inductive Regex
  | one (accepts : Char → Bool)
  | many (accepts : Char → Bool)
  | seq (first second : Regex)
  | group (name : String) (inner : Regex)

namespace Regex

abbrev Groups := List (String × List Char)

/-- The texts that a pattern matches as a whole. -/
inductive Matches : Regex → List Char → Groups → Prop
  | one {accepts : Char → Bool} {c : Char} (hc : accepts c = true) : Matches (.one accepts) [c] []
  | many {accepts : Char → Bool} {text : List Char} (htext : ∀ c ∈ text, accepts c = true) :
      Matches (.many accepts) text []
  | seq {first second : Regex} {front back : List Char} {groups more : Groups}
      (hfront : Matches first front groups) (hback : Matches second back more) :
      Matches (.seq first second) (front ++ back) (groups ++ more)
  | group {name : String} {inner : Regex} {text : List Char} {groups : Groups}
      (hinner : Matches inner text groups) :
      Matches (.group name inner) text ((name, text) :: groups)

structure Run where
  taken : List Char
  rest : List Char
  groups : Groups := []

def repetitions (accepts : Char → Bool) : List Char → List Run
  | [] => [{ taken := [], rest := [] }]
  | c :: rest =>
    (if accepts c then
      (repetitions accepts rest).map fun run => { run with taken := c :: run.taken }
    else []) ++ [{ taken := [], rest := c :: rest }]

/-- All ways to match a start of a text, in the order in which they are tried. -/
def runs : Regex → List Char → List Run
  | one _, [] => []
  | one accepts, c :: rest => if accepts c then [{ taken := [c], rest }] else []
  | many accepts, text => repetitions accepts text
  | seq first second, text =>
    (first.runs text).flatMap fun run => (second.runs run.rest).map fun next =>
      ⟨run.taken ++ next.taken, next.rest, run.groups ++ next.groups⟩
  | group name inner, text =>
    (inner.runs text).map fun run => { run with groups := (name, run.taken) :: run.groups }

def captures? (pattern : Regex) (text : List Char) : Option Groups :=
  ((pattern.runs text).find? (·.rest.isEmpty)).map Run.groups

section Iff

variable {accepts : Char → Bool} {first second inner pattern : Regex} {name : String}
  {text : List Char} {groups : Groups} {run : Run}

@[simp] theorem matches_one_iff :
    (one accepts).Matches text groups ↔ ∃ c, accepts c = true ∧ text = [c] ∧ groups = [] := by
  constructor
  · rintro ⟨hc⟩
    exact ⟨_, hc, rfl, rfl⟩
  · rintro ⟨c, hc, rfl, rfl⟩
    exact .one hc

@[simp] theorem matches_many_iff :
    (many accepts).Matches text groups ↔ (∀ c ∈ text, accepts c = true) ∧ groups = [] := by
  constructor
  · intro h
    cases h with
    | many htext => exact ⟨htext, rfl⟩
  · rintro ⟨htext, rfl⟩
    exact .many htext

@[simp] theorem matches_seq_iff : (seq first second).Matches text groups ↔
    ∃ front back early late, first.Matches front early ∧ second.Matches back late ∧
      text = front ++ back ∧ groups = early ++ late := by
  constructor
  · intro h
    cases h with
    | seq hfront hback => exact ⟨_, _, _, _, hfront, hback, rfl, rfl⟩
  · rintro ⟨front, back, early, late, hfront, hback, rfl, rfl⟩
    exact .seq hfront hback

@[simp] theorem matches_group_iff : (group name inner).Matches text groups ↔
    ∃ others, inner.Matches text others ∧ groups = (name, text) :: others := by
  constructor
  · intro h
    cases h with
    | group hinner => exact ⟨_, hinner, rfl⟩
  · rintro ⟨others, hinner, rfl⟩
    exact .group hinner

theorem cons_mem_repetitions_iff {c d : Char} {taken rest : List Char} :
    (⟨d :: taken, rest, groups⟩ : Run) ∈ repetitions accepts (c :: text) ↔
      accepts c = true ∧ c = d ∧ (⟨taken, rest, groups⟩ : Run) ∈ repetitions accepts text := by
  rw [repetitions, List.mem_append, List.mem_singleton, or_iff_left (by simp)]
  by_cases hc : accepts c = true
  · rw [if_pos hc, List.mem_map]
    constructor
    · rintro ⟨run, hrun, heq⟩
      obtain ⟨htaken, rfl, rfl⟩ := Run.mk.inj heq
      obtain ⟨rfl, rfl⟩ := List.cons.inj htaken
      exact ⟨hc, rfl, hrun⟩
    · rintro ⟨_, rfl, hrun⟩
      exact ⟨_, hrun, rfl⟩
  · simp [hc]

private theorem mem_repetitions_iff : run ∈ repetitions accepts text ↔
    run.taken ++ run.rest = text ∧ (many accepts).Matches run.taken run.groups := by
  obtain ⟨taken, rest, groups⟩ := run
  rw [matches_many_iff]
  induction text generalizing taken with
  | nil => simp +contextual [repetitions, and_assoc]
  | cons c text ih =>
    cases taken with
    | nil => by_cases hc : accepts c = true <;> simp [repetitions, hc]
    | cons d taken =>
      rw [cons_mem_repetitions_iff, ih, List.cons_append, List.cons.injEq, List.forall_mem_cons]
      constructor
      · rintro ⟨hc, rfl, hrest, htaken, hgroups⟩
        exact ⟨⟨rfl, hrest⟩, ⟨hc, htaken⟩, hgroups⟩
      · rintro ⟨⟨rfl, hrest⟩, ⟨hc, htaken⟩, hgroups⟩
        exact ⟨hc, rfl, hrest, htaken, hgroups⟩

theorem mem_runs_iff : run ∈ pattern.runs text ↔
    run.taken ++ run.rest = text ∧ pattern.Matches run.taken run.groups := by
  induction pattern generalizing text run with
  | one accepts =>
    obtain ⟨taken, rest, groups⟩ := run
    rw [matches_one_iff]
    cases text with
    | nil => simp +contextual [runs]
    | cons c text =>
      have hrun : (⟨taken, rest, groups⟩ : Run) ∈ (one accepts).runs (c :: text) ↔
          accepts c = true ∧ taken = [c] ∧ rest = text ∧ groups = [] := by
        by_cases hc : accepts c = true <;> simp [runs, hc]
      rw [hrun]
      constructor
      · rintro ⟨hc, rfl, rfl, rfl⟩
        exact ⟨rfl, c, hc, rfl, rfl⟩
      · rintro ⟨htext, d, hd, rfl, rfl⟩
        obtain ⟨rfl, rfl⟩ := List.cons.inj htext
        exact ⟨hd, rfl, rfl, rfl⟩
  | many accepts => exact mem_repetitions_iff
  | seq first second ihFirst ihSecond =>
    rw [runs, List.mem_flatMap, matches_seq_iff]
    constructor
    · rintro ⟨early, hearly, hmem⟩
      obtain ⟨late, hlate, rfl⟩ := List.mem_map.mp hmem
      obtain ⟨hrest, hfirst⟩ := ihFirst.mp hearly
      obtain ⟨hrest', hsecond⟩ := ihSecond.mp hlate
      refine ⟨?_, _, _, _, _, hfirst, hsecond, rfl, rfl⟩
      rw [List.append_assoc, hrest', hrest]
    · rintro ⟨htext, front, back, early, late, hfirst, hsecond, htaken, hgroups⟩
      refine ⟨⟨front, back ++ run.rest, early⟩, ihFirst.mpr ⟨?_, hfirst⟩, List.mem_map.mpr
        ⟨⟨back, run.rest, late⟩, ihSecond.mpr ⟨rfl, hsecond⟩, ?_⟩⟩
      · rw [← htext, htaken, List.append_assoc]
      · rw [← htaken, ← hgroups]
  | group name inner ih =>
    rw [runs, List.mem_map, matches_group_iff]
    constructor
    · rintro ⟨inside, hinside, rfl⟩
      obtain ⟨htext, hinner⟩ := ih.mp hinside
      exact ⟨htext, _, hinner, rfl⟩
    · rintro ⟨htext, others, hinner, hgroups⟩
      refine ⟨⟨run.taken, run.rest, others⟩, ih.mpr ⟨htext, hinner⟩, ?_⟩
      rw [← hgroups]

theorem captures?_eq_none_iff :
    pattern.captures? text = none ↔ ∀ groups, ¬ pattern.Matches text groups := by
  rw [captures?, Option.map_eq_none_iff, List.find?_eq_none]
  constructor
  · intro h groups hmatches
    have hrun : (⟨text, [], groups⟩ : Run) ∈ pattern.runs text :=
      mem_runs_iff.mpr ⟨List.append_nil _, hmatches⟩
    exact h _ hrun rfl
  · rintro h ⟨taken, rest, groups⟩ hrun hrest
    obtain ⟨htext, hmatches⟩ := mem_runs_iff.mp hrun
    obtain rfl : rest = [] := List.isEmpty_iff.mp hrest
    rw [List.append_nil] at htext
    exact h groups (htext ▸ hmatches)

private theorem matches_of_captures? (h : pattern.captures? text = some groups) :
    pattern.Matches text groups := by
  obtain ⟨⟨taken, rest, _⟩, hfind, rfl⟩ := Option.map_eq_some_iff.mp h
  obtain ⟨htext, hmatches⟩ := mem_runs_iff.mp (List.mem_of_find?_eq_some hfind)
  obtain rfl : rest = [] := by simpa using List.find?_some hfind
  rw [List.append_nil] at htext
  exact htext ▸ hmatches

/-- Where a text can be taken apart in one way only, it does not matter what is tried first. -/
theorem captures?_eq_some_iff
    (hunique : ∀ groups others, pattern.Matches text groups → pattern.Matches text others →
      groups = others) :
    pattern.captures? text = some groups ↔ pattern.Matches text groups := by
  refine ⟨matches_of_captures?, fun hmatches => ?_⟩
  cases hcaptures : pattern.captures? text with
  | none => exact absurd hmatches (captures?_eq_none_iff.mp hcaptures groups)
  | some others => rw [hunique _ _ hmatches (matches_of_captures? hcaptures)]

end Iff
end Regex

namespace Guarded

/-- The pattern of a guarded choice, `^(?P<text>[^#]*)#(?P<guard>.*)#$`, where the dot stands for
all but a line feed. -/
def pattern : Regex :=
  .seq (.group "text" (.many (· ≠ '#'))) (.seq (.one (· = '#'))
    (.seq (.group "guard" (.many (· ≠ '\n'))) (.one (· = '#'))))

def groups (parts : Guarded) : Regex.Groups := [("text", parts.text), ("guard", parts.guard)]

variable {chars : List Char} {parts other : Guarded} {found : Regex.Groups}

theorem groups_inj (h : parts.groups = other.groups) : parts = other := by
  obtain ⟨text, guard⟩ := parts
  obtain ⟨text', guard'⟩ := other
  simp_all [groups]

/-- A text is cut where the pattern takes it apart. -/
theorem matches_pattern_iff :
    pattern.Matches chars found ↔ ∃ parts, split? chars = some parts ∧ parts.groups = found := by
  constructor
  · intro h
    obtain ⟨text, _, _, _, hfront, hbehind, rfl, rfl⟩ := Regex.matches_seq_iff.mp h
    obtain ⟨_, _, _, _, hsign, hinner, rfl, rfl⟩ := Regex.matches_seq_iff.mp hbehind
    obtain ⟨guard, _, _, _, hguard, hlast, rfl, rfl⟩ := Regex.matches_seq_iff.mp hinner
    simp only [Regex.matches_group_iff, Regex.matches_many_iff, Regex.matches_one_iff,
      decide_eq_true_eq] at hfront hsign hguard hlast
    obtain ⟨_, ⟨htext, rfl⟩, rfl⟩ := hfront
    obtain ⟨_, rfl, rfl, rfl⟩ := hsign
    obtain ⟨_, ⟨hguard, rfl⟩, rfl⟩ := hguard
    obtain ⟨_, rfl, rfl, rfl⟩ := hlast
    refine ⟨⟨text, guard⟩, split?_eq_some_iff.mpr ⟨rfl, ?_, ?_⟩, rfl⟩
    · exact fun hmem => htext _ hmem rfl
    · exact fun hmem => hguard _ hmem rfl
  · rintro ⟨parts, hsplit, rfl⟩
    obtain ⟨rfl, htext, hguard⟩ := split?_eq_some_iff.mp hsplit
    have hsign : (Regex.one (· = '#')).Matches ['#'] [] := .one rfl
    have hfront : (Regex.group "text" (.many (· ≠ '#'))).Matches parts.text
        [("text", parts.text)] :=
      .group (.many fun c hc => decide_eq_true (ne_of_mem_of_not_mem hc htext))
    have hinner : (Regex.group "guard" (.many (· ≠ '\n'))).Matches parts.guard
        [("guard", parts.guard)] :=
      .group (.many fun c hc => decide_eq_true (ne_of_mem_of_not_mem hc hguard))
    exact .seq hfront (.seq hsign (.seq hinner hsign))

/-- The pattern takes a text apart in one way at most. -/
theorem eq_of_matches_pattern {others : Regex.Groups} (h : pattern.Matches chars found)
    (hother : pattern.Matches chars others) : found = others := by
  obtain ⟨parts, hparts, rfl⟩ := matches_pattern_iff.mp h
  obtain ⟨other, hsplit, rfl⟩ := matches_pattern_iff.mp hother
  rw [Option.some.inj (hparts.symm.trans hsplit)]

theorem captures?_pattern (chars : List Char) :
    pattern.captures? chars = (split? chars).map groups := by
  cases hsplit : split? chars with
  | none =>
    refine Regex.captures?_eq_none_iff.mpr fun found hfound => ?_
    obtain ⟨parts, hparts, _⟩ := matches_pattern_iff.mp hfound
    rw [hsplit] at hparts
    contradiction
  | some parts =>
    refine (Regex.captures?_eq_some_iff fun _ _ => eq_of_matches_pattern).mpr ?_
    exact matches_pattern_iff.mpr ⟨parts, hsplit, rfl⟩

example : pattern.captures? "a # b#c#".toList =
    some [("text", "a ".toList), ("guard", " b#c".toList)] := by decide +kernel

private theorem idxOf_chars (h : '#' ∉ parts.text) : parts.chars.idxOf '#' = parts.text.length := by
  rw [chars, List.idxOf_append_of_notMem h, List.idxOf_cons_self, Nat.add_zero]

theorem getElem?_chars (parts : Guarded) (i : Nat) :
    parts.chars[parts.text.length + 1 + i]? = (parts.guard ++ ['#'])[i]? := by
  rw [chars, Nat.add_assoc, List.getElem?_append_right (Nat.le_add_right ..),
    Nat.add_sub_cancel_left, Nat.add_comm, List.getElem?_cons_succ]

theorem exists_split?_iff : (∃ parts, split? chars = some parts) ↔
    chars.getLast? = some '#' ∧ '#' ∈ chars.dropLast ∧
      ∀ i, chars.idxOf '#' < i → i + 1 < chars.length → chars[i]? ≠ some '\n' := by
  constructor
  · rintro ⟨parts, hsplit⟩
    obtain ⟨rfl, htext, hguard⟩ := split?_eq_some_iff.mp hsplit
    have hchars : parts.chars = (parts.text ++ '#' :: parts.guard) ++ ['#'] := by simp [chars]
    refine ⟨?_, ?_, fun i hlo hhi hfeed => hguard ?_⟩
    · rw [hchars, List.getLast?_concat]
    · rw [hchars, List.dropLast_concat]
      simp
    · rw [idxOf_chars htext] at hlo
      obtain ⟨j, rfl⟩ := Nat.exists_eq_add_of_lt hlo
      rw [Nat.add_right_comm, getElem?_chars, List.getElem?_append_left] at hfeed
      · exact List.mem_of_getElem? hfeed
      · rw [hchars, List.length_append, List.length_append, List.length_cons,
          List.length_singleton] at hhi
        omega
  · rintro ⟨hlast, hmem, hfeed⟩
    obtain ⟨front, rfl⟩ := List.getLast?_eq_some_iff.mp hlast
    rw [List.dropLast_concat] at hmem
    obtain ⟨text, guard, rfl, htext⟩ := List.eq_append_cons_of_mem hmem
    have hchars : (text ++ '#' :: guard) ++ ['#'] = (⟨text, guard⟩ : Guarded).chars := by
      simp [chars]
    rw [hchars] at hfeed ⊢
    refine ⟨⟨text, guard⟩, split?_eq_some_iff.mpr ⟨rfl, htext, fun hin => ?_⟩⟩
    obtain ⟨j, hj, hget⟩ := List.getElem_of_mem hin
    rw [idxOf_chars htext] at hfeed
    refine hfeed (text.length + 1 + j) (by simp only; omega) ?_ ?_
    · rw [← hchars, List.length_append, List.length_append, List.length_cons,
        List.length_singleton]
      simp only at hj
      omega
    · rw [getElem?_chars ⟨text, guard⟩ j, List.getElem?_append_left hj, List.getElem?_eq_getElem hj,
        hget]

/-- How a text is recognized as a guarded choice. -/
structure Recognized (chars : List Char) : Prop where
  matches_iff : (∃ found, pattern.Matches chars found) ↔
    chars.getLast? = some '#' ∧ '#' ∈ chars.dropLast ∧
      ∀ i, chars.idxOf '#' < i → i + 1 < chars.length → chars[i]? ≠ some '\n'
  matches_iff_cut : ∀ found, pattern.Matches chars found ↔
    ∃ text guard, chars = text ++ '#' :: (guard ++ ['#']) ∧ '#' ∉ text ∧ '\n' ∉ guard ∧
      found = [("text", text), ("guard", guard)]
  unique : ∀ found others, pattern.Matches chars found → pattern.Matches chars others →
    found = others
  captures?_eq_some_iff : ∀ found,
    pattern.captures? chars = some found ↔ pattern.Matches chars found
  captures?_eq : pattern.captures? chars = (split? chars).map groups

theorem recognized (chars : List Char) : Recognized chars := by
  constructor
  · rw [← exists_split?_iff]
    constructor
    · rintro ⟨found, hfound⟩
      obtain ⟨parts, hparts, _⟩ := matches_pattern_iff.mp hfound
      exact ⟨parts, hparts⟩
    · rintro ⟨parts, hparts⟩
      exact ⟨_, matches_pattern_iff.mpr ⟨parts, hparts, rfl⟩⟩
  · intro found
    rw [matches_pattern_iff]
    constructor
    · rintro ⟨⟨text, guard⟩, hparts, rfl⟩
      obtain ⟨hchars, htext, hguard⟩ := split?_eq_some_iff.mp hparts
      exact ⟨text, guard, hchars.symm, htext, hguard, rfl⟩
    · rintro ⟨text, guard, hchars, htext, hguard, rfl⟩
      exact ⟨⟨text, guard⟩, split?_eq_some_iff.mpr ⟨hchars.symm, htext, hguard⟩, rfl⟩
  · exact fun _ _ => eq_of_matches_pattern
  · exact fun _ => Regex.captures?_eq_some_iff fun _ _ => eq_of_matches_pattern
  · exact captures?_pattern chars

end Guarded
end Dialogue
