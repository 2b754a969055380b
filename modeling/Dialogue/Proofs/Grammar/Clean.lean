import Dialogue.Line.Basic
import Dialogue.Line.Guard
import Dialogue.Text.Lines

/-! Clean texts: what is left of a text when blanks are trimmed off and lines are told apart.
Lines that are written from clean texts are read back as they were. -/
namespace Dialogue.Text

theorem toList_ne_nil {text : String} (h : text ≠ "") : text.toList ≠ [] :=
  mt String.toList_eq_nil_iff.mp h

structure Clean (text : List Char) : Prop where
  trim_eq : trim text = text
  newline_notMem : '\n' ∉ text

variable {text line lead rest : List Char} {c : Char}

private theorem trimStart_suffix (text : List Char) : trimStart text <:+ text :=
    List.dropWhile_suffix _

theorem trimEnd_isInitial (text : List Char) : trimEnd text <+: text := by
  have h := (List.dropWhile_suffix (l := text.reverse) isBlank).reverse
  rwa [List.reverse_reverse] at h

theorem mem_of_mem_trim (h : c ∈ trim text) : c ∈ text :=
  (trimStart_suffix text).subset ((trimEnd_isInitial _).subset h)

theorem trimStart_cons (h : isBlank c = false) : trimStart (c :: text) = c :: text := by
  simp [trimStart, h]

theorem trimEnd_cons (h : isBlank c = false) : trimEnd (c :: text) = c :: trimEnd text := by
  simp only [trimEnd, List.reverse_cons, List.dropWhile_append]
  cases hrest : text.reverse.dropWhile isBlank with
  | nil => simp [h]
  | cons => simp

private theorem trim_cons_of_isBlank (h : isBlank c = true) : trim (c :: text) = trim text := by
  simp [trim, trimStart, h]

structure Solid (text : List Char) : Prop where
  head : ∃ c, text.head? = some c ∧ isBlank c = false
  last : ∃ c, text.getLast? = some c ∧ isBlank c = false

theorem Solid.ne_nil (h : Solid text) : text ≠ [] := by
  obtain ⟨c, hhead, -⟩ := h.head
  rintro rfl
  contradiction

theorem Solid.reverse (h : Solid text) : Solid text.reverse where
  head := by simpa using h.last
  last := by simpa using h.head

private theorem Solid.trimStart_append (h : Solid text) (after : List Char) :
    trimStart (text ++ after) = text ++ after := by
  obtain ⟨c, hhead, hc⟩ := h.head
  obtain ⟨rest, rfl⟩ := List.head?_eq_some_iff.mp hhead
  exact trimStart_cons hc

theorem trimStart_blanks_append (h : ∀ c ∈ line, isBlank c = true) (text : List Char) :
    trimStart (line ++ text) = trimStart text :=
  List.dropWhile_append_of_pos h

private theorem trimEnd_append_blanks (text : List Char) (h : ∀ c ∈ line, isBlank c = true) :
    trimEnd (text ++ line) = trimEnd text := by
  rw [trimEnd, List.reverse_append, List.dropWhile_append_of_pos, trimEnd]
  simpa using h

theorem Solid.trim_append {after : List Char} (h : Solid text)
    (hlead : ∀ c ∈ lead, isBlank c = true) (hafter : ∀ c ∈ after, isBlank c = true) :
    trim (lead ++ (text ++ after)) = text := by
  have hend : trimEnd text = text := by
    have hreverse := h.reverse.trimStart_append []
    rw [List.append_nil] at hreverse
    rw [trimEnd, ← trimStart, hreverse, List.reverse_reverse]
  rw [trim, trimStart_blanks_append hlead, h.trimStart_append,
    trimEnd_append_blanks text hafter, hend]

theorem Solid.trim_eq (h : Solid text) : trim text = text := by
  have hnone : ∀ c ∈ ([] : List Char), isBlank c = true := by simp
  simpa using h.trim_append hnone hnone

theorem isBlank_getLast_trimEnd (h : (trimEnd text).getLast? = some c) : isBlank c = false := by
  rw [trimEnd, List.getLast?_reverse, ← trimStart] at h
  obtain ⟨rest, hrest⟩ := List.head?_eq_some_iff.mp h
  exact isBlank_head_trimStart hrest

theorem solid_trim (h : trim text ≠ []) : Solid (trim text) where
  head := by
    cases hstart : trimStart text with
    | nil =>
      rw [trim, hstart] at h
      contradiction
    | cons d rest =>
      have hd := isBlank_head_trimStart hstart
      exact ⟨d, by rw [trim, hstart, trimEnd_cons hd, List.head?_cons], hd⟩
  last := by
    have hlast := List.getLast?_eq_some_getLast h
    exact ⟨_, hlast, isBlank_getLast_trimEnd hlast⟩

theorem trim_trim (text : List Char) : trim (trim text) = trim text := by
  by_cases h : trim text = []
  · rw [h, trim_nil]
  · exact (solid_trim h).trim_eq

theorem clean_trim (h : '\n' ∉ text) : Clean (trim text) :=
  ⟨trim_trim text, fun hin => h (mem_of_mem_trim hin)⟩

/-- Blanks and then something that does not start with a blank. -/
structure Indented (text lead rest : List Char) : Prop where
  text_eq : text = lead ++ rest
  lead_blank : ∀ c ∈ lead, isBlank c = true
  rest_head : ∃ c, rest.head? = some c ∧ isBlank c = false

theorem Indented.eq (h : Indented text lead rest) :
    text.takeWhile isBlank = lead ∧ trimStart text = rest := by
  obtain ⟨c, hhead, hc⟩ := h.rest_head
  obtain ⟨tail, rfl⟩ := List.head?_eq_some_iff.mp hhead
  rw [h.text_eq, List.takeWhile_append_of_pos h.lead_blank, trimStart_blanks_append h.lead_blank]
  simp [hc, trimStart_cons]

namespace Clean

theorem nil : Clean [] := ⟨rfl, List.not_mem_nil⟩

theorem of_ends (hhead : ∀ c, text.head? = some c → isBlank c = false)
    (hlast : ∀ c, text.getLast? = some c → isBlank c = false) (hline : '\n' ∉ text) :
    Clean text := by
  by_cases hne : text = []
  · rw [hne]
    exact nil
  · have hsolid : Solid text := by
      constructor
      · exact ⟨_, List.head?_eq_some_head hne, hhead _ (List.head?_eq_some_head hne)⟩
      · exact ⟨_, List.getLast?_eq_some_getLast hne, hlast _ (List.getLast?_eq_some_getLast hne)⟩
    exact ⟨hsolid.trim_eq, hline⟩

theorem solid (h : Clean text) (hne : text ≠ []) : Solid text := by
  rw [← h.trim_eq] at hne ⊢
  exact solid_trim hne

theorem isBlank_head (h : Clean (c :: text)) : isBlank c = false := by
  obtain ⟨d, hhead, hd⟩ := (h.solid (List.cons_ne_nil c text)).head
  exact Option.some.inj hhead ▸ hd

theorem isBlank_getLast (h : Clean text) (hlast : text.getLast? = some c) : isBlank c = false := by
  have hne : text ≠ [] := by
    rintro rfl
    contradiction
  obtain ⟨d, hd, hblank⟩ := (h.solid hne).last
  exact Option.some.inj (hd.symm.trans hlast) ▸ hblank

end Clean

theorem ofSuffix_eq (column : Nat) (suffix : List Char) : Excerpt.ofSuffix column suffix =
    if trim suffix = [] then none
    else some ⟨column + (suffix.takeWhile isBlank).length, String.ofList (trim suffix)⟩ := by
  unfold Excerpt.ofSuffix
  cases trim suffix <;> simp

theorem eq_of_ofSuffix {column : Nat} {excerpt : Excerpt}
    (h : Excerpt.ofSuffix column text = some excerpt) : trim text ≠ [] ∧
      excerpt = ⟨column + (text.takeWhile isBlank).length, String.ofList (trim text)⟩ := by
  rw [ofSuffix_eq] at h
  split at h
  next => contradiction
  next hne => exact ⟨hne, (Option.some.inj h).symm⟩

theorem ofSuffix_blank_cons (h : Clean text) (hne : text ≠ []) (column : Nat) :
    ∃ start, Excerpt.ofSuffix column (' ' :: text) = some ⟨start, String.ofList text⟩ := by
  have hblank : isBlank ' ' = true := by decide
  rw [ofSuffix_eq, trim_cons_of_isBlank hblank, h.trim_eq, if_neg hne]
  exact ⟨_, rfl⟩

theorem ofSuffix_of_clean (h : Clean text) (hne : text ≠ []) (column : Nat) :
    ∃ start, Excerpt.ofSuffix column text = some ⟨start, String.ofList text⟩ := by
  rw [ofSuffix_eq, h.trim_eq, if_neg hne]
  exact ⟨_, rfl⟩

theorem clean_of_ofSuffix {column : Nat} {excerpt : Excerpt}
    (h : Excerpt.ofSuffix column text = some excerpt) (hline : '\n' ∉ text) :
    Clean excerpt.text.toList ∧ excerpt.text ≠ "" := by
  obtain ⟨hne, rfl⟩ := eq_of_ofSuffix h
  rw [String.toList_ofList]
  exact ⟨clean_trim hline, mt String.ofList_eq_empty_iff.mp hne⟩

/-! Lines of a text that is put together from lines. -/

theorem prependToFirst_cons (c : Char) (first : List Char) (rest : List (List Char)) :
    prependToFirst c (first :: rest) = (c :: first) :: rest := rfl

theorem splitLines_append (h : '\n' ∉ line) (hend : line.getLast? ≠ some '\r')
    (rest : List Char) : splitLines (line ++ '\n' :: rest) = line :: splitLines rest := by
  induction line with
  | nil => rfl
  | cons c line ih =>
    have hc : c ≠ '\n' := fun heq => h (heq ▸ List.mem_cons_self)
    have hline : '\n' ∉ line := fun hin => h (List.mem_cons_of_mem c hin)
    have hreturn : ∀ rest', c = '\r' → line ++ '\n' :: rest = '\n' :: rest' → False := by
      rintro rest' rfl heq
      cases line with
      | nil => exact hend rfl
      | cons d line =>
        rw [List.cons_append] at heq
        exact hline ((List.cons.inj heq).1 ▸ List.mem_cons_self)
    have hrest : splitLines (line ++ '\n' :: rest) = line :: splitLines rest := by
      apply ih hline
      cases line with
      | nil => simp
      | cons d line => simpa using hend
    rw [List.cons_append, splitLines.eq_4 c _ hc hreturn, hrest, prependToFirst_cons]

theorem splitLines_of_notMem (h : '\n' ∉ line) (hne : line ≠ []) : splitLines line = [line] := by
  induction line with
  | nil => contradiction
  | cons c line ih =>
    have hc : c ≠ '\n' := fun heq => h (heq ▸ List.mem_cons_self)
    have hline : '\n' ∉ line := fun hin => h (List.mem_cons_of_mem c hin)
    have hreturn : ∀ rest', c = '\r' → line = '\n' :: rest' → False := by
      rintro rest' _ rfl
      exact hline List.mem_cons_self
    rw [splitLines.eq_4 c _ hc hreturn]
    cases line with
    | nil => rfl
    | cons d line => rw [ih hline (List.cons_ne_nil d line), prependToFirst_cons]

/-- A text that stands on a line of its own and is read back from there. -/
structure Single (line : List Char) : Prop where
  newline_notMem : '\n' ∉ line
  getLast?_ne : line.getLast? ≠ some '\r'

theorem Clean.single (h : Clean text) : Single text := by
  refine ⟨h.newline_notMem, fun hlast => ?_⟩
  have hblank : isBlank '\r' = true := by decide
  rw [h.isBlank_getLast hlast] at hblank
  contradiction

theorem Single.append {other : List Char} (h : Single line) (hother : Single other) :
    Single (line ++ other) := by
  refine ⟨fun hin => ?_, fun hlast => ?_⟩
  · rcases List.mem_append.mp hin with hleft | hright
    · exact h.newline_notMem hleft
    · exact hother.newline_notMem hright
  · rw [List.getLast?_append] at hlast
    rcases Option.or_eq_some_iff.mp hlast with hright | ⟨_, hleft⟩
    · exact hother.getLast?_ne hright
    · exact h.getLast?_ne hleft

theorem splitLines_flatMap {lines : List (List Char)} (h : ∀ line ∈ lines, Single line) :
    splitLines (lines.flatMap (· ++ ['\n'])) = lines := by
  induction lines with
  | nil => rfl
  | cons line rest ih =>
    have hline := h line List.mem_cons_self
    rw [List.flatMap_cons, List.append_assoc, List.singleton_append,
      splitLines_append hline.newline_notMem hline.getLast?_ne,
      ih fun other hother => h other (List.mem_cons_of_mem line hother)]

theorem intercalate_cons (piece : List Char) (pieces : List (List Char)) :
    List.intercalate ['\n'] (piece :: pieces) = piece ++ pieces.flatMap ('\n' :: ·) := by
  induction pieces generalizing piece with
  | nil => simp [List.intercalate]
  | cons next rest ih =>
    have hnext := ih next
    simp only [List.intercalate, List.intersperse, List.flatten_cons] at hnext ⊢
    rw [List.flatMap_cons, hnext]
    simp

theorem intercalate_concat {pieces : List (List Char)} (hne : pieces ≠ [])
    (piece : List Char) : List.intercalate ['\n'] (pieces ++ [piece]) =
      List.intercalate ['\n'] pieces ++ '\n' :: piece := by
  cases pieces with
  | nil => contradiction
  | cons first rest =>
    rw [List.cons_append, intercalate_cons, intercalate_cons, List.flatMap_append]
    simp

theorem splitLines_intercalate {pieces : List (List Char)} (hne : pieces ≠ [])
    (h : ∀ piece ∈ pieces, Clean piece ∧ piece ≠ []) :
    splitLines (List.intercalate ['\n'] pieces) = pieces := by
  induction pieces with
  | nil => contradiction
  | cons piece rest ih =>
    obtain ⟨hclean, hpiece⟩ := h piece List.mem_cons_self
    cases rest with
    | nil =>
      rw [intercalate_cons, List.flatMap_nil, List.append_nil]
      exact splitLines_of_notMem hclean.newline_notMem hpiece
    | cons next rest =>
      have hrest := ih (List.cons_ne_nil next rest)
        fun other hother => h other (List.mem_cons_of_mem piece hother)
      have hsingle := hclean.single
      rw [intercalate_cons, List.flatMap_cons, List.cons_append,
        splitLines_append hsingle.newline_notMem hsingle.getLast?_ne, ← intercalate_cons, hrest]

end Dialogue.Text
