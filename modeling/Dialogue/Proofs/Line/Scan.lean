import Dialogue.Proofs.Line.Cuts

/-! How a line is scanned. One pass over the blanks in front counts tabs, characters and bytes side
by side; the parts of a line give the same counts. What a line says of itself is fixed by the one
way in which its text is blanks and something else. -/
namespace Dialogue

open Text (isBlank byteLength Excerpt excerptAt)

/-- What has been counted of a line, up to some character. -/
structure Tally where
  depth : Nat := 1
  column : Nat := 0
  indent : Nat := 0
  deriving Repr, DecidableEq

namespace Tally

def next (tally : Tally) (c : Char) : Tally where
  depth := if c = '\t' then tally.depth + 1 else tally.depth
  column := tally.column + 1
  indent := tally.indent + c.utf8Size

def upTo? : Tally → List Char → Option Tally
  | _, [] => none
  | tally, c :: rest =>
    if c = '\t' then (tally.next c).upTo? rest
    else if isBlank c = false then some tally
    else (tally.next c).upTo? rest

def ofPassed (passed : List Char) : Tally where
  depth := 1 + passed.count '\t'
  column := passed.length
  indent := byteLength passed

theorem next_ofPassed (passed : List Char) (c : Char) :
    (ofPassed passed).next c = ofPassed (passed ++ [c]) := by
  by_cases hc : c = '\t' <;> simp [next, ofPassed, hc, Nat.add_assoc]

private theorem upTo?_cons (tally : Tally) (c : Char) (rest : List Char) : tally.upTo? (c :: rest) =
    if isBlank c = true then (tally.next c).upTo? rest else some tally := by
  have htab : isBlank '\t' = true := by decide
  by_cases hc : c = '\t'
  · simp [upTo?, hc, htab]
  · cases hblank : isBlank c <;> simp [upTo?, hc, hblank]

theorem upTo?_ofPassed (passed text : List Char) : (ofPassed passed).upTo? text =
    if Text.trimStart text = [] then none
    else some (ofPassed (passed ++ text.takeWhile isBlank)) := by
  induction text generalizing passed with
  | nil => rfl
  | cons c rest ih =>
    -- a blank moves from what is left to what has been passed
    rw [upTo?_cons, next_ofPassed, ih]
    by_cases hc : isBlank c = true <;> simp [Text.trimStart, hc]

end Tally

namespace Marker

/-- A sign makes the marker of a text that starts with it; what starts with no sign is plain. -/
def Starts (marker : Marker) (text : List Char) : Prop :=
  marker.sign <+: text ∧
    (marker = .text → ∀ other : Marker, other ≠ .text → ¬ other.sign <+: text)

private theorem split_eq_iff {marker : Marker} {text : List Char} :
    (split text).1 = marker ↔ marker.Starts text := by
  constructor
  · rintro rfl
    exact ⟨⟨_, sign_append_split text⟩, not_sign_iff.mpr⟩
  · rintro ⟨⟨rest, hrest⟩, hplain⟩
    by_cases hmarker : marker = .text
    · rw [hmarker]
      exact not_sign_iff.mp (hplain hmarker)
    · rw [← hrest, split_sign_append hmarker]

private theorem drop_width_split (text : List Char) :
    text.drop (split text).1.width = (split text).2 := by
  have hdrop := congrArg (List.drop (split text).1.sign.length) (sign_append_split text)
  rw [List.drop_left] at hdrop
  exact hdrop.symm

end Marker

namespace Line

variable {line : Line} {number : Nat} {text lead rest : List Char} {excerpt : Excerpt}

def tally (line : Line) : Tally := ⟨line.depth, line.column, line.indent⟩

/-- One pass finds a line where its parts are found, with the same counts. -/
theorem upTo?_eq_map_tally (number : Nat) (text : List Char) :
    ({} : Tally).upTo? text = (read? number text).map tally := by
  have hrun := Tally.upTo?_ofPassed [] text
  rw [show Tally.ofPassed [] = {} from rfl] at hrun
  rw [hrun, read?]
  cases Text.trimStart text with
  | nil => rfl
  | cons c rest => rfl

/-- What a line says of blanks and of what stands behind them. -/
structure Describes (line : Line) (text lead rest : List Char) : Prop where
  depth_eq : line.depth = 1 + lead.count '\t'
  column_eq : line.column = lead.length
  indent_eq : line.indent = (String.ofList lead).utf8ByteSize
  marker_iff : ∀ marker, line.marker = marker ↔ marker.Starts rest
  excerpt?_eq_none_iff : line.excerpt? = none ↔
    ∀ c ∈ rest.drop line.marker.width, isBlank c = true
  excerpt?_eq_some_iff : ∀ excerpt, line.excerpt? = some excerpt ↔ ∃ blanks after,
    text = lead ++ line.marker.sign ++ blanks ++ excerpt.text.toList ++ after ∧
      (∀ c ∈ blanks, isBlank c = true) ∧ (∀ c ∈ after, isBlank c = true) ∧
      Text.Solid excerpt.text.toList ∧
      excerpt.column = (lead ++ line.marker.sign ++ blanks).length
  excerpt?_eq : line.excerpt? = excerptAt text (line.indent + line.marker.width)

private theorem excerpt?_eq_some_iff : line.excerpt? = some excerpt ↔ ∃ blanks after,
    line.chars = line.lead ++ line.marker.sign ++ blanks ++ excerpt.text.toList ++ after ∧
      (∀ c ∈ blanks, isBlank c = true) ∧ (∀ c ∈ after, isBlank c = true) ∧
      Text.Solid excerpt.text.toList ∧
      excerpt.column = (line.lead ++ line.marker.sign ++ blanks).length := by
  have hcolumn (blanks : List Char) : line.restColumn + blanks.length =
      (line.lead ++ line.marker.sign ++ blanks).length := by
    rw [List.length_append, length_lead_append_sign]
  rw [excerpt?, Text.ofSuffix_eq_some_iff]
  apply exists_congr; intro blanks
  apply exists_congr; intro after
  rw [hcolumn, chars]
  constructor
  · rintro ⟨hframed, heq⟩
    refine ⟨?_, hframed.lead_blank, hframed.after_blank, hframed.inner_solid, heq⟩
    rw [hframed.text_eq]
    simp only [List.append_assoc]
  · rintro ⟨hchars, hblanks, hafter, hsolid, heq⟩
    simp only [List.append_assoc, List.append_cancel_left_eq] at hchars
    exact ⟨⟨hchars, hblanks, hsolid, hafter⟩, heq⟩

theorem exists_describes (number : Nat) (h : Text.Indented text lead rest) :
    ∃ line, read? number text = some line ∧ line.number = number ∧
      line.Describes text lead rest := by
  have hread := read?_of_indented h number
  have hchars := chars_of_read? hread
  refine ⟨_, hread, rfl, ?_⟩
  constructor
  · rfl
  · rfl
  · exact Text.byteLength_eq lead
  · exact fun marker => Marker.split_eq_iff
  · rw [excerpt?, Text.ofSuffix_eq_none_iff, Marker.drop_width_split]
  · intro excerpt
    rw [excerpt?_eq_some_iff, hchars]
  · rw [excerpt?_eq_excerptAt, hchars]

/-- How a text is scanned. -/
structure Scanned (number : Nat) (text : List Char) : Prop where
  eq_none_iff : read? number text = none ↔ ∀ c ∈ text, isBlank c = true
  exists_unique : (∃ c ∈ text, isBlank c = false) →
    ∃! parts : List Char × List Char, Text.Indented text parts.1 parts.2
  exists_line : ∀ lead rest, Text.Indented text lead rest →
    ∃ line, read? number text = some line ∧ line.number = number ∧ line.Describes text lead rest
  counted : ({} : Tally).upTo? text = (read? number text).map tally

end Line

/-- Scanning a line and cutting an excerpt out of a text find what there is, and where it is. -/
theorem scan_exact (number : Nat) (text : List Char) :
    Line.Scanned number text ∧ ∀ offset, Text.Excerpted text offset := by
  constructor
  · constructor
    · exact Line.read?_eq_none_iff
    · intro hword
      refine ⟨(_, _), Text.indented_trimStart hword, ?_⟩
      rintro ⟨lead, rest⟩ h
      obtain ⟨hlead, hrest⟩ := Text.Indented.eq h
      exact Prod.ext hlead.symm hrest.symm
    · exact fun lead rest => Line.exists_describes number
    · exact Line.upTo?_eq_map_tally number text
  · exact Text.excerpted text

/-- A space, a tab and a blank of three bytes in front of the sign, and blanks of two bytes and of
three around the text. -/
example : (Line.read? 0 " \t\u3000*\u00a0é x\u2028".toList).map
    (fun line => (line.tally, line.marker, line.excerpt?)) =
      some (⟨2, 3, 5⟩, .choice, some ⟨5, "é x"⟩) := by decide +kernel

end Dialogue
