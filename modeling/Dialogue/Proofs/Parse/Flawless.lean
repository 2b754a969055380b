import Dialogue.Proofs.Parse.Ledger

/-! Scripts without errors. Where reading finds no error, every section is the first one with
its name, and nothing is found but the text behind return markers. -/
namespace Dialogue

def Line.ignored? (line : Line) : Option Text.Excerpt :=
  if line.marker = .back then line.excerpt? else none

def Line.warnings (line : Line) : List Diagnostic :=
  line.ignored?.toList.map fun extra => line.complaint extra.column (.ignoredText extra.text)

namespace Line

variable {options : Options} {judge : Query → Option Rejection} {taken : String → Option Nat}
  {line : Line}

theorem diagnostics_eq_warnings
    (h : ∀ diagnostic ∈ (line.effect options judge taken).diagnostics, diagnostic.isError = false) :
    (line.effect options judge taken).diagnostics = line.warnings := by
  by_cases hmarker : line.marker = .back
  · rw [warnings, ignored?, if_pos hmarker]
    simp only [effect, hmarker]
  · rw [warnings, ignored?, if_neg hmarker]
    refine List.eq_nil_iff_forall_not_mem.mpr fun diagnostic hmem => ?_
    have hfine := h diagnostic hmem
    cases line.found_effect options judge taken diagnostic hmem with
    | error column hcause =>
      rw [Diagnostic.isError, Diagnostic.severity, complaint,
        Cause.severity_of_isReadError hcause] at hfine
      contradiction
    | ignored hback => exact hmarker hback

theorem exists_excerpt_of_scope {column : Nat} {key : String} {declared : Bool}
    (h : (line.effect options judge taken).growth = .scope column key declared) :
    line.marker = .scope ∧ line.excerpt? = some ⟨column, key⟩ := by
  generalize heffect : line.effect options judge taken = effect at h
  have hacts := line.acts_effect options judge taken
  rw [heffect] at hacts
  cases hacts with
  | scope found name hmarker hname =>
    obtain ⟨rfl, rfl, _⟩ := Growth.scope.inj h
    exact ⟨hmarker, hname⟩
  | _ => contradiction

theorem taken_eq_none_of_scope {column : Nat} {key : String} {declared : Bool}
    (hgrowth : (line.effect options judge taken).growth = .scope column key declared)
    (h : ∀ diagnostic ∈ (line.effect options judge taken).diagnostics, diagnostic.isError = false) :
    taken key = none := by
  obtain ⟨hmarker, hname⟩ := exists_excerpt_of_scope hgrowth
  simp only [effect, hmarker, scopeEffect, hname] at hgrowth h
  split at hgrowth
  next => contradiction
  next hlax =>
    rw [if_neg hlax] at h
    cases htaken : taken key with
    | none => rfl
    | some first =>
      rw [htaken] at hgrowth h
      cases hduplicates : options.duplicates with
      | fail =>
        rw [hduplicates] at hgrowth
        contradiction
      | report =>
        rw [hduplicates] at h
        have hfine := h _ (List.mem_append_right _ (List.mem_singleton_self _))
        contradiction

end Line

namespace Sketch

variable {entries : List Entry}

private theorem lookup_names_append {entry : Entry}
    (h : ∀ id key, entries[id]?.bind Entry.key? = some key →
      (names entries).lookup key = some id)
    (hfree : ∀ key, entry.key? = some key → (names entries).lookup key = none) :
    ∀ id key, (entries ++ [entry])[id]?.bind Entry.key? = some key →
      (names (entries ++ [entry])).lookup key = some id := by
  intro id key hkey
  rw [names_append]
  rcases Nat.lt_trichotomy id entries.length with hlt | rfl | hgt
  · rw [List.getElem?_append_left hlt] at hkey
    have hold := h id key hkey
    cases hentry : entry.key? with
    | none => exact hold
    | some name =>
      rw [declare, hfree name hentry, Option.isNone_none, if_pos rfl, List.lookup_append, hold]
      rfl
  · rw [List.getElem?_concat_length, Option.bind_some] at hkey
    rw [hkey, declare, hfree key hkey, Option.isNone_none, if_pos rfl, List.lookup_append,
      hfree key hkey]
    simp
  · rw [List.getElem?_eq_none] at hkey
    · contradiction
    · rw [List.length_append, List.length_singleton]
      exact hgt

theorem lookup_names_grow {depth number : Nat} {growth : Growth}
    (h : ∀ id key, entries[id]?.bind Entry.key? = some key →
      (names entries).lookup key = some id)
    (hfree : ∀ column key declared, growth = .scope column key declared →
      (names entries).lookup key = none) :
    ∀ id key, (grow entries depth number growth)[id]?.bind Entry.key? = some key →
      (names (grow entries depth number growth)).lookup key = some id := by
  cases growth with
  | nothing => exact h
  | leaf => exact lookup_names_append h fun _ hfound => absurd hfound (Option.some_ne_none _).symm
  | choice => exact lookup_names_append h fun _ hfound => absurd hfound (Option.some_ne_none _).symm
  | scope column key declared =>
    refine lookup_names_append h fun found hfound => ?_
    obtain rfl := Option.some.inj hfound
    exact hfree column key declared rfl
  | command column text =>
    simp only [grow]
    cases extensible? entries (ground entries + depth) with
    | none => exact lookup_names_append h fun _ hfound => absurd hfound (Option.some_ne_none _).symm
    | some last =>
      intro id key hkey
      rw [names_extend]
      refine h id key ?_
      rw [getElem?_extend] at hkey
      split at hkey
      · simpa [Option.bind_map, Function.comp_def] using hkey
      · exact hkey

end Sketch

namespace Reading

variable {options : Options} {checker : Checker} {lines : List String} {reading : Reading} {i : Nat}

def Flawless (reading : Reading) : Prop :=
  ∀ diagnostic ∈ reading.diagnostics.toList, diagnostic.isError = false

/-- What a line does to a reading in which there is no error. -/
theorem Flawless.filter_eq (hfine : reading.Flawless)
    (h : read options checker lines = .ok reading) {line : Line}
    (hat : Line.at? lines line.number = some line) :
    reading.diagnostics.toList.filter (·.line = line.number) = line.warnings ∧
      stage options checker lines (line.number + 1) =
        { stage options checker lines line.number with lineCount := line.number + 1 }.absorb line
          ((stage options checker lines line.number).effect options checker line) ∧
      ∀ diagnostic ∈ ((stage options checker lines line.number).effect options checker
        line).diagnostics, diagnostic.isError = false := by
  have hlt := Line.lt_length_of_at? hat
  rcases stage_cases h hlt with ⟨hnone, _⟩ | ⟨other, hother, ⟨hdeep, _⟩ | ⟨_, hnext⟩⟩
  · rw [hat] at hnone
    contradiction
  · obtain rfl := Option.some.inj (hat.symm.trans hother)
    have hfilter := filter_diagnostics_of_deep h hat hdeep
    have hmem : line.complaint line.column .tooDeep ∈
        reading.diagnostics.toList.filter (·.line = line.number) := by
      rw [hfilter]
      exact List.mem_singleton_self _
    have herror := hfine _ (List.mem_filter.mp hmem).1
    contradiction
  · obtain rfl := Option.some.inj (hat.symm.trans hother)
    have hfilter := filter_diagnostics_of_absorb h hlt hnext
    have hquiet (diagnostic : Diagnostic) (hmem : diagnostic ∈
        ((stage options checker lines line.number).effect options checker line).diagnostics) :
        diagnostic.isError = false := by
      rw [← hfilter] at hmem
      exact hfine diagnostic (List.mem_filter.mp hmem).1
    exact ⟨hfilter.trans (Line.diagnostics_eq_warnings hquiet), hnext, hquiet⟩

theorem Flawless.lookup_names (hfine : reading.Flawless)
    (h : read options checker lines = .ok reading) (hi : i ≤ lines.length) :
    ∀ id key, (stage options checker lines i).entries[id]?.bind Entry.key? = some key →
      (Sketch.names (stage options checker lines i).entries).lookup key = some id := by
  induction i with
  | zero =>
    intro id key hkey
    cases id <;> exact nomatch hkey
  | succ i ih =>
    have hold := ih (Nat.le_of_succ_le hi)
    rcases stage_cases h hi with ⟨_, hnext⟩ | ⟨line, hat, ⟨_, hnext⟩ | ⟨_, hnext⟩⟩
    · rw [hnext]
      exact hold
    · rw [hnext]
      exact hold
    · obtain rfl := Line.number_of_at? hat
      obtain ⟨_, _, hquiet⟩ := hfine.filter_eq h hat
      rw [hnext]
      refine Sketch.lookup_names_grow hold fun column key declared hgrowth => ?_
      have hfree := Line.taken_eq_none_of_scope hgrowth hquiet
      exact Option.map_eq_none_iff.mp hfree

end Reading
end Dialogue
