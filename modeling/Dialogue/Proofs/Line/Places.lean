import Dialogue.Proofs.Grammar.Wording

/-! Where the parts of a line stand. A line is its indentation, its marker, blanks, the text behind
the marker and blanks again, so that every column and every byte offset that is computed from it is
the length of what stands before. -/
namespace Dialogue

open Text (isBlank byteLength cutAt Excerpt)

namespace Text

def StandsAt (text : List Char) (column : Nat) (piece : List Char) : Prop :=
  piece <+: text.drop column

variable {text piece other suffix : List Char} {column : Nat} {excerpt : Excerpt}

theorem standsAt_append (before piece after : List Char) :
    StandsAt (before ++ (piece ++ after)) before.length piece := by
  rw [StandsAt, List.drop_left]
  exact List.prefix_append piece after

theorem StandsAt.of_isInitial (h : StandsAt text column piece) (hinitial : other <+: piece) :
    StandsAt text column other :=
  hinitial.trans h

theorem StandsAt.lt_length (h : StandsAt text column piece) (hne : piece ≠ []) :
    column < text.length := by
  have hpos := List.length_pos_iff.mpr hne
  have hle := h.length_le
  rw [List.length_drop] at hle
  omega

theorem exists_trimEnd_append (text : List Char) :
    ∃ blanks, text = trimEnd text ++ blanks ∧ ∀ c ∈ blanks, isBlank c = true := by
  refine ⟨(text.reverse.takeWhile isBlank).reverse, ?_, fun c hc => ?_⟩
  · rw [trimEnd, ← List.reverse_append, List.takeWhile_append_dropWhile, List.reverse_reverse]
  · exact List.mem_takeWhile_imp (List.mem_reverse.mp hc)

theorem exists_trim_append (text : List Char) :
    ∃ blanks, text = text.takeWhile isBlank ++ (trim text ++ blanks) ∧
      ∀ c ∈ blanks, isBlank c = true := by
  obtain ⟨blanks, htrim, hblanks⟩ := exists_trimEnd_append (trimStart text)
  refine ⟨blanks, ?_, hblanks⟩
  rw [trim, ← htrim]
  exact (takeWhile_append_trimStart text).symm

theorem trim_eq_nil_iff : trim text = [] ↔ ∀ c ∈ text, isBlank c = true := by
  rw [← trimStart_eq_nil_iff, trim]
  cases hstart : trimStart text with
  | nil => exact iff_of_true rfl rfl
  | cons c rest =>
    rw [trimEnd_cons (isBlank_head_trimStart hstart)]
    exact iff_of_false (List.cons_ne_nil _ _) (List.cons_ne_nil _ _)

theorem exists_append_of_ofSuffix (h : Excerpt.ofSuffix column suffix = some excerpt) :
    excerpt.column = column + (suffix.takeWhile isBlank).length ∧
      ∃ after, suffix = suffix.takeWhile isBlank ++ (excerpt.text.toList ++ after) ∧
        ∀ c ∈ after, isBlank c = true := by
  obtain ⟨-, rfl⟩ := eq_of_ofSuffix h
  rw [String.toList_ofList]
  exact ⟨rfl, exists_trim_append suffix⟩

theorem solid_of_ofSuffix (h : Excerpt.ofSuffix column suffix = some excerpt) :
    Solid excerpt.text.toList := by
  obtain ⟨hne, rfl⟩ := eq_of_ofSuffix h
  rw [String.toList_ofList]
  exact solid_trim hne

end Text

namespace Guarded

variable {chars : List Char} {parts : Guarded}

def front (parts : Guarded) : List Char :=
  parts.text ++ '#' :: parts.guard.takeWhile isBlank

theorem length_front (parts : Guarded) : parts.front.length = parts.offset := by
  simp only [front, offset, List.length_append, List.length_cons]
  omega

theorem exists_chars_eq (parts : Guarded) :
    ∃ after, parts.chars = parts.front ++ (parts.condition.toList ++ after) := by
  obtain ⟨blanks, hguard, _⟩ := Text.exists_trim_append parts.guard
  refine ⟨blanks ++ ['#'], ?_⟩
  calc parts.chars
      = parts.text ++ '#' ::
          ((parts.guard.takeWhile isBlank ++ (Text.trim parts.guard ++ blanks)) ++ ['#']) := by
        rw [← hguard, chars]
    _ = parts.front ++ (parts.condition.toList ++ (blanks ++ ['#'])) := by
        simp [front, condition]

/-- Also a guard without a condition is followed by a number sign. -/
theorem offset_lt (parts : Guarded) : parts.offset < parts.chars.length := by
  have hle := (List.takeWhile_prefix (l := parts.guard) isBlank).length_le
  simp only [offset, chars, List.length_append, List.length_cons, List.length_nil]
  omega

theorem split?_eq_some_iff : split? chars = some parts ↔
    parts.chars = chars ∧ '#' ∉ parts.text ∧ '\n' ∉ parts.guard := by
  constructor
  · intro h
    refine ⟨chars_of_split? h, number_sign_notMem h, ?_⟩
    unfold split? at h
    split at h
    · contradiction
    · split at h
      next hinner =>
        rw [← Option.some.inj h]
        exact hinner.2
      next => contradiction
  · rintro ⟨rfl, htext, hguard⟩
    exact split?_chars htext hguard

theorem label_isInitial (h : split? chars = some parts)
    (hhead : ∀ c, chars.head? = some c → isBlank c = false) : parts.label.toList <+: chars := by
  have hchars := chars_of_split? h
  rw [label, String.toList_ofList]
  cases htext : parts.text with
  | nil => exact List.nil_prefix
  | cons c rest =>
    have hblank : isBlank c = false := by
      apply hhead
      rw [← hchars, Guarded.chars, htext]
      rfl
    rw [Text.trim, Text.trimStart_cons hblank, ← hchars, Guarded.chars, htext]
    exact (Text.trimEnd_isInitial _).trans (List.prefix_append _ _)

end Guarded

namespace Line

variable {line : Line} {number : Nat} {text : List Char} {excerpt : Excerpt} {parts : Guarded}

theorem isBlank_of_mem_lead (h : read? number text = some line) :
    ∀ c ∈ line.lead, isBlank c = true := by
  unfold read? at h
  split at h
  · contradiction
  · obtain rfl := Option.some.inj h
    exact fun c hc => List.mem_takeWhile_imp hc

theorem exists_sign_append_eq (h : read? number text = some line) :
    ∃ c after, line.marker.sign ++ line.rest = c :: after ∧ isBlank c = false := by
  unfold read? at h
  split at h
  · contradiction
  · next c after hstart =>
    obtain rfl := Option.some.inj h
    exact ⟨c, after, Marker.sign_append_split _, Text.isBlank_head_trimStart hstart⟩

theorem take_column (h : read? number text = some line) : text.take line.column = line.lead := by
  rw [← chars_of_read? h, chars, column, List.take_left]

theorem exists_getElem?_column (h : read? number text = some line) :
    ∃ c, text[line.column]? = some c ∧ isBlank c = false := by
  obtain ⟨c, after, hrest, hblank⟩ := exists_sign_append_eq h
  refine ⟨c, ?_, hblank⟩
  rw [← chars_of_read? h, chars, hrest, column, List.getElem?_append_right (Nat.le_refl _),
    Nat.sub_self, List.getElem?_cons_zero]

theorem column_lt (h : read? number text = some line) : line.column < text.length := by
  obtain ⟨_, hget, _⟩ := exists_getElem?_column h
  exact (List.getElem?_eq_some_iff.mp hget).1

theorem length_lead_append_sign (line : Line) :
    (line.lead ++ line.marker.sign).length = line.restColumn := by
  rw [List.length_append, restColumn, column, Marker.width]

theorem take_restColumn (h : read? number text = some line) :
    text.take line.restColumn = line.lead ++ line.marker.sign := by
  rw [← chars_of_read? h, chars, ← List.append_assoc, ← length_lead_append_sign, List.take_left]

theorem standsAt_sign (h : read? number text = some line) :
    Text.StandsAt text line.column line.marker.sign := by
  rw [← chars_of_read? h]
  exact Text.standsAt_append ..

def front (line : Line) : List Char :=
  line.lead ++ line.marker.sign ++ line.rest.takeWhile isBlank

theorem exists_chars_eq (h : line.excerpt? = some excerpt) :
    excerpt.column = line.front.length ∧
      ∃ after, line.chars = line.front ++ (excerpt.text.toList ++ after) := by
  obtain ⟨hcolumn, after, hrest, _⟩ := Text.exists_append_of_ofSuffix h
  refine ⟨?_, after, ?_⟩
  · rw [hcolumn, front, List.length_append, length_lead_append_sign]
  · calc line.chars
        = line.lead ++ (line.marker.sign ++
            (line.rest.takeWhile isBlank ++ (excerpt.text.toList ++ after))) := by
          rw [← hrest, chars]
      _ = line.front ++ (excerpt.text.toList ++ after) := by simp [front]

/-- The text of a line stands where its excerpt says. -/
theorem standsAt_excerpt (h : read? number text = some line)
    (hexcerpt : line.excerpt? = some excerpt) :
    Text.StandsAt text excerpt.column excerpt.text.toList := by
  obtain ⟨hcolumn, after, hchars⟩ := exists_chars_eq hexcerpt
  rw [← chars_of_read? h, hcolumn, hchars]
  exact Text.standsAt_append ..

theorem excerpt_column_lt (h : read? number text = some line)
    (hexcerpt : line.excerpt? = some excerpt) : excerpt.column < text.length := by
  exact (standsAt_excerpt h hexcerpt).lt_length (Text.solid_of_ofSuffix hexcerpt).ne_nil

theorem isBlank_head_excerpt (hexcerpt : line.excerpt? = some excerpt) :
    ∀ c, excerpt.text.toList.head? = some c → isBlank c = false := by
  intro c hc
  obtain ⟨d, hd, hblank⟩ := (Text.solid_of_ofSuffix hexcerpt).head
  exact Option.some.inj (hd.symm.trans hc) ▸ hblank

theorem exists_condition_chars_eq (hexcerpt : line.excerpt? = some excerpt)
    (hparts : Guarded.split? excerpt.text.toList = some parts) :
    excerpt.column + parts.offset = (line.front ++ parts.front).length ∧
      ∃ after, line.chars = line.front ++ parts.front ++ (parts.condition.toList ++ after) := by
  obtain ⟨hcolumn, behind, hchars⟩ := exists_chars_eq hexcerpt
  obtain ⟨after, hcondition⟩ := parts.exists_chars_eq
  refine ⟨?_, after ++ behind, ?_⟩
  · rw [hcolumn, List.length_append, Guarded.length_front]
  · rw [hchars, ← Guarded.chars_of_split? hparts, hcondition]
    simp only [List.append_assoc]

theorem number_sign_notMem_front (h : read? number text = some line)
    (hmarker : line.marker = .choice) : '#' ∉ line.front := by
  have hsign : isBlank '#' = false := by decide
  rw [front, hmarker]
  simp only [List.mem_append, not_or]
  refine ⟨⟨fun hin => ?_, by decide⟩, fun hin => ?_⟩
  · rw [isBlank_of_mem_lead h _ hin] at hsign
    contradiction
  · rw [List.mem_takeWhile_imp hin] at hsign
    contradiction

/-- A line that can be cut wherever a byte offset is computed from it, so that what is left starts
with what is looked for there. -/
structure Sliced (text : List Char) (line : Line) : Prop where
  indent : cutAt line.indent text = some (line.lead, line.marker.sign ++ line.rest)
  rest : cutAt (line.indent + line.marker.width) text =
    some (line.lead ++ line.marker.sign, line.rest)
  excerpt : ∀ excerpt, line.excerpt? = some excerpt → ∃ front after,
    cutAt (line.indent + line.marker.width + byteLength (line.rest.takeWhile isBlank)) text =
        some (front, excerpt.text.toList ++ after) ∧ front.length = excerpt.column
  guard : ∀ excerpt parts, line.excerpt? = some excerpt →
    Guarded.split? excerpt.text.toList = some parts → ∃ front after,
      cutAt (byteLength parts.text + 1 + byteLength (parts.guard.takeWhile isBlank))
          excerpt.text.toList = some (front, parts.condition.toList ++ after) ∧
        front.length = parts.offset

theorem sliced_of_read? (h : read? number text = some line) : line.Sliced text := by
  have hchars := chars_of_read? h
  have hbytes : line.indent + line.marker.width = byteLength (line.lead ++ line.marker.sign) := by
    rw [Text.byteLength_append, indent, Marker.byteLength_sign]
  constructor
  · rw [← hchars, indent]
    exact Text.cutAt_byteLength ..
  · rw [← hchars, chars, ← List.append_assoc, hbytes]
    exact Text.cutAt_byteLength ..
  · intro excerpt hexcerpt
    obtain ⟨hcolumn, after, hfront⟩ := exists_chars_eq hexcerpt
    refine ⟨line.front, after, ?_, hcolumn.symm⟩
    rw [← hchars, hfront, hbytes, ← Text.byteLength_append]
    exact Text.cutAt_byteLength ..
  · intro excerpt parts _ hparts
    obtain ⟨after, hfront⟩ := parts.exists_chars_eq
    have hoffset : byteLength parts.text + 1 + byteLength (parts.guard.takeWhile isBlank) =
        byteLength parts.front := by
      have hsign : Char.utf8Size '#' = 1 := rfl
      rw [Guarded.front, Text.byteLength_append, Text.byteLength_cons, hsign, Nat.add_assoc]
    refine ⟨parts.front, after, ?_, parts.length_front⟩
    rw [← Guarded.chars_of_split? hparts, hfront, hoffset]
    exact Text.cutAt_byteLength ..

end Line
end Dialogue
