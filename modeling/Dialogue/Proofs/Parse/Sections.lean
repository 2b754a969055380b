import Mathlib.Data.List.Basic
import Dialogue.Proofs.Grammar.Wording
import Dialogue.Proofs.Parse.Flawless

/-! Sections by name. A name is entered for the first section that has it, and whoever takes it
again is reported, in the order of the sections. -/
namespace Dialogue

def Cause.isDuplicate : Cause → Bool
  | duplicateScope .. => true
  | _ => false

namespace Sketch

variable {entries : List Entry} {entry : Entry} {id first : Nat} {key : String}

def keyAt? (entries : List Entry) (id : Nat) : Option String := entries[id]?.bind Entry.key?

def columnAt (entries : List Entry) (id : Nat) : Nat :=
  (entries[id]?.map (·.mark.column)).getD 0

def sections (entries : List Entry) : List Nat :=
  (List.range entries.length).filter fun id => (keyAt? entries id).isSome

def duplicate? (entries : List Entry) (id : Nat) : Option Diagnostic :=
  (keyAt? entries id).bind fun key => ((names entries).lookup key).bind fun first =>
    if first = id then none
    else some ⟨lineAt entries id, columnAt entries id,
      .duplicateScope key (lineAt entries first)⟩

theorem keyAt?_append (h : id < entries.length) :
    keyAt? (entries ++ [entry]) id = keyAt? entries id := by
  rw [keyAt?, keyAt?, List.getElem?_append_left h]

theorem keyAt?_extend (entries : List Entry) (id : Nat) (text : String) (other : Nat) :
    keyAt? (entries.modify id (Entry.extend text)) other = keyAt? entries other := by
  rw [keyAt?, keyAt?, getElem?_extend]
  split
  · rw [Option.bind_map]
    exact congrArg (Option.bind _) (funext (Entry.key?_extend text))
  · rfl

private theorem columnAt_extend (entries : List Entry) (id : Nat) (text : String) (other : Nat) :
    columnAt (entries.modify id (Entry.extend text)) other = columnAt entries other := by
  rw [columnAt, columnAt, getElem?_extend]
  split
  · rw [Option.map_map]
    rfl
  · rfl

theorem lt_length_of_keyAt? (h : keyAt? entries id = some key) : id < entries.length := by
  obtain ⟨entry, hentry, _⟩ := Option.bind_eq_some_iff.mp h
  exact (List.getElem?_eq_some_iff.mp hentry).1

theorem mem_sections_iff : id ∈ sections entries ↔ ∃ key, keyAt? entries id = some key := by
  rw [sections, List.mem_filter, List.mem_range, Option.isSome_iff_exists]
  exact and_iff_right_of_imp fun ⟨_, hkey⟩ => lt_length_of_keyAt? hkey

theorem sorted_sections (entries : List Entry) : (sections entries).Pairwise (· < ·) :=
  List.pairwise_lt_range.filter _

theorem lookup_names_eq_some_iff : (names entries).lookup key = some first ↔
    keyAt? entries first = some key ∧ ∀ id < first, keyAt? entries id ≠ some key := by
  rw [lookup_names, List.findIdx?_eq_some_iff_getElem]
  constructor
  · rintro ⟨hlt, hkey, hbefore⟩
    refine ⟨?_, fun id hid hsame => hbefore id hid ?_⟩
    · rw [keyAt?, List.getElem?_eq_getElem hlt, Option.bind_some]
      exact beq_iff_eq.mp hkey
    · rw [keyAt?, List.getElem?_eq_getElem (Nat.lt_trans hid hlt), Option.bind_some] at hsame
      exact beq_iff_eq.mpr hsame
  · rintro ⟨hkey, hbefore⟩
    have hlt := lt_length_of_keyAt? hkey
    rw [keyAt?, List.getElem?_eq_getElem hlt, Option.bind_some] at hkey
    refine ⟨hlt, beq_iff_eq.mpr hkey, fun id hid hsame => hbefore id hid ?_⟩
    rw [keyAt?, List.getElem?_eq_getElem (Nat.lt_trans hid hlt), Option.bind_some]
    exact beq_iff_eq.mp hsame

theorem exists_lookup_of_keyAt? (h : keyAt? entries id = some key) :
    ∃ first, (names entries).lookup key = some first ∧ first ≤ id := by
  obtain ⟨entry, hentry, hkey⟩ := Option.bind_eq_some_iff.mp h
  obtain ⟨hlt, rfl⟩ := List.getElem?_eq_some_iff.mp hentry
  cases hfind : (names entries).lookup key with
  | some first =>
    refine ⟨first, rfl, Nat.le_of_not_lt fun hbefore => ?_⟩
    exact (lookup_names_eq_some_iff.mp hfind).2 id hbefore h
  | none =>
    rw [lookup_names, List.findIdx?_eq_none_iff] at hfind
    have hnone := hfind _ (List.getElem_mem hlt)
    rw [hkey, beq_self_eq_true] at hnone
    contradiction

theorem lookup_names_append_of_some (h : (names entries).lookup key = some first) :
    (names (entries ++ [entry])).lookup key = some first := by
  rw [lookup_names] at h ⊢
  rw [List.findIdx?_append, h]
  rfl

private theorem duplicate?_append (hid : id < entries.length) :
    duplicate? (entries ++ [entry]) id = duplicate? entries id := by
  rw [duplicate?, duplicate?, keyAt?_append hid]
  cases hkey : keyAt? entries id with
  | none => rfl
  | some key =>
    obtain ⟨first, hfirst, hle⟩ := exists_lookup_of_keyAt? hkey
    have hlt : first < entries.length := Nat.lt_of_le_of_lt hle hid
    simp only [Option.bind_some, hfirst, lookup_names_append_of_some hfirst, lineAt_append hid,
      lineAt_append hlt, columnAt, List.getElem?_append_left hid]

private theorem duplicate?_length : duplicate? (entries ++ [entry]) entries.length =
    entry.key?.bind fun key => ((names entries).lookup key).map fun first =>
      ⟨entry.mark.line, entry.mark.column, .duplicateScope key (lineAt entries first)⟩ := by
  have hentry : (entries ++ [entry])[entries.length]? = some entry := List.getElem?_concat_length
  rw [duplicate?, keyAt?, hentry, Option.bind_some]
  cases hkey : entry.key? with
  | none => rfl
  | some key =>
    rw [Option.bind_some, Option.bind_some]
    cases hfind : (names entries).lookup key with
    | none =>
      rw [names_append, hkey, declare, hfind, Option.isNone_none, if_pos rfl, List.lookup_append,
        hfind]
      simp
    | some first =>
      have hlt := lt_length_of_keyAt? (lookup_names_eq_some_iff.mp hfind).1
      rw [lookup_names_append_of_some hfind, Option.bind_some, if_neg (Nat.ne_of_lt hlt),
        lineAt_append hlt, lineAt, columnAt, hentry]
      rfl

private theorem sections_append : sections (entries ++ [entry]) =
    sections entries ++ if entry.key?.isSome then [entries.length] else [] := by
  have hlast : keyAt? (entries ++ [entry]) entries.length = entry.key? := by
    rw [keyAt?, List.getElem?_concat_length]
    rfl
  have hsame : ∀ id ∈ List.range entries.length,
      (keyAt? (entries ++ [entry]) id).isSome = (keyAt? entries id).isSome := fun id hid => by
    rw [keyAt?_append (List.mem_range.mp hid)]
  rw [sections, List.length_append, List.length_singleton, List.range_succ, List.filter_append,
    List.filter_congr hsame, List.filter_cons, hlast, List.filter_nil]
  rfl

theorem duplicates_append : (sections (entries ++ [entry])).filterMap
      (duplicate? (entries ++ [entry])) =
    (sections entries).filterMap (duplicate? entries) ++
      (entry.key?.bind fun key => ((names entries).lookup key).map fun first =>
        (⟨entry.mark.line, entry.mark.column,
          .duplicateScope key (lineAt entries first)⟩ : Diagnostic)).toList := by
  have hold : (sections entries).filterMap (duplicate? (entries ++ [entry])) =
      (sections entries).filterMap (duplicate? entries) := by
    refine List.filterMap_congr fun id hid => duplicate?_append ?_
    obtain ⟨key, hkey⟩ := mem_sections_iff.mp hid
    exact lt_length_of_keyAt? hkey
  rw [sections_append, List.filterMap_append, hold]
  cases hkey : entry.key? with
  | none => rfl
  | some key =>
    rw [Option.isSome_some, if_pos rfl, List.filterMap_cons, duplicate?_length, hkey,
      Option.bind_some]
    cases (names entries).lookup key <;> rfl

private theorem duplicates_extend (entries : List Entry) (id : Nat) (text : String) :
    (sections (entries.modify id (Entry.extend text))).filterMap
        (duplicate? (entries.modify id (Entry.extend text))) =
      (sections entries).filterMap (duplicate? entries) := by
  have hsections : sections (entries.modify id (Entry.extend text)) = sections entries := by
    rw [sections, sections, List.length_modify]
    simp only [keyAt?_extend]
  have hsame : duplicate? (entries.modify id (Entry.extend text)) = duplicate? entries := by
    funext other
    simp only [duplicate?, keyAt?_extend, names_extend, lineAt_extend, columnAt_extend]
  rw [hsections, hsame]

/-- What a line adds to the reports of names that are taken. -/
theorem duplicates_grow (entries : List Entry) (depth number : Nat) (growth : Growth) :
    (sections (grow entries depth number growth)).filterMap
        (duplicate? (grow entries depth number growth)) =
      (sections entries).filterMap (duplicate? entries) ++
        match growth with
        | .scope column key _ => (((names entries).lookup key).map fun first =>
            (⟨number, column, .duplicateScope key (lineAt entries first)⟩ : Diagnostic)).toList
        | _ => [] := by
  cases growth with
  | nothing => exact (List.append_nil _).symm
  | leaf => exact duplicates_append
  | choice => exact duplicates_append
  | scope => exact duplicates_append
  | command column text =>
    simp only [grow]
    split
    · rw [duplicates_extend, List.append_nil]
    · exact duplicates_append

private theorem keyAt?_grow {depth number : Nat} {growth : Growth}
    (h : keyAt? (grow entries depth number growth) id = some key) :
    keyAt? entries id = some key ∨ ∃ column declared, growth = .scope column key declared := by
  have happend {entry : Entry} (h : keyAt? (entries ++ [entry]) id = some key) :
      keyAt? entries id = some key ∨ entry.key? = some key := by
    rcases Nat.lt_trichotomy id entries.length with hlt | rfl | hgt
    · rw [keyAt?_append hlt] at h
      exact .inl h
    · rw [keyAt?, List.getElem?_concat_length] at h
      exact .inr h
    · have hlt := lt_length_of_keyAt? h
      rw [List.length_append, List.length_singleton] at hlt
      omega
  cases growth with
  | nothing => exact .inl h
  | leaf => exact .inl ((happend h).resolve_right (Option.some_ne_none key).symm)
  | choice => exact .inl ((happend h).resolve_right (Option.some_ne_none key).symm)
  | scope column name declared =>
    refine (happend h).imp_right fun hkey => ⟨column, declared, ?_⟩
    obtain rfl : name = key := Option.some.inj hkey
    rfl
  | command column text =>
    simp only [grow] at h
    split at h
    · rw [keyAt?_extend] at h
      exact .inl h
    · exact .inl ((happend h).resolve_right (Option.some_ne_none key).symm)

end Sketch

namespace Line

variable (options : Options) (judge : Query → Option Rejection) (taken : String → Option Nat)
  (line : Line)

theorem filter_isDuplicate_misaligned :
    line.misaligned.filter (·.cause.isDuplicate) = [] := by
  unfold misaligned
  split <;> rfl

private theorem filter_isDuplicate_scopeEffect :
    (line.scopeEffect options taken).diagnostics.filter (·.cause.isDuplicate) =
      match (line.scopeEffect options taken).growth with
      | .scope column key _ => ((taken key).map fun first =>
          line.complaint column (.duplicateScope key first)).toList
      | _ => [] := by
  have hnone := line.filter_isDuplicate_misaligned
  unfold scopeEffect
  split
  · exact hnone
  · cases line.excerpt? with
    | none =>
      rw [List.filter_append, hnone]
      rfl
    | some name =>
      dsimp only
      cases htaken : taken name.text with
      | none =>
        simp only [htaken]
        exact hnone
      | some first =>
        cases options.duplicates with
        | fail => exact hnone
        | report =>
          simp only [htaken]
          rw [List.filter_append, hnone]
          rfl

private theorem filter_isDuplicate_choiceEffect :
    (line.choiceEffect judge).diagnostics.filter (·.cause.isDuplicate) =
      match (line.choiceEffect judge).growth with
      | .scope column key _ => ((taken key).map fun first =>
          line.complaint column (.duplicateScope key first)).toList
      | _ => [] := by
  unfold choiceEffect
  cases line.excerpt? with
  | none => rfl
  | some choice =>
    dsimp only
    cases Guarded.split? choice.text.toList with
    | none => rfl
    | some parts =>
      dsimp only
      unfold guardedEffect
      by_cases hcondition : parts.condition = ""
      · rw [if_pos hcondition]
        rfl
      · rw [if_neg hcondition]
        cases judge (.condition parts.condition) <;> rfl

theorem filter_isDuplicate_effect :
    (line.effect options judge taken).diagnostics.filter (·.cause.isDuplicate) =
      match (line.effect options judge taken).growth with
      | .scope column key _ => ((taken key).map fun first =>
          line.complaint column (.duplicateScope key first)).toList
      | _ => [] := by
  unfold effect
  cases line.marker with
  | scope => exact line.filter_isDuplicate_scopeEffect options taken
  | choice => exact line.filter_isDuplicate_choiceEffect judge taken
  | comment => rfl
  | command => cases line.excerpt? <;> rfl
  | jump => cases line.excerpt? <;> rfl
  | back => cases line.excerpt? <;> rfl
  | text => cases line.excerpt? <;> rfl

end Line

namespace Reading

variable {options : Options} {checker : Checker} {lines : List String} {reading : Reading}

theorem filter_isDuplicate_diagnostics (h : read options checker lines = .ok reading) :
    reading.diagnostics.toList.filter (·.cause.isDuplicate) =
      (Sketch.sections reading.entries).filterMap (Sketch.duplicate? reading.entries) := by
  refine read_of_invariant
    (P := fun reading => reading.diagnostics.toList.filter (·.cause.isDuplicate) =
      (Sketch.sections reading.entries).filterMap (Sketch.duplicate? reading.entries)) ?_ rfl h
  intro reading text _ next hold hfeed
  rcases feed_cases hfeed with ⟨_, rfl⟩ | ⟨line, _, ⟨_, rfl⟩ | ⟨_, _, rfl⟩⟩
  · exact hold
  · rw [Array.toList_push, List.filter_append, hold]
    exact List.append_nil _
  · simp only [absorb]
    have hfound := line.filter_isDuplicate_effect options (reading.judge checker) reading.taken
    rw [← effect] at hfound
    rw [Array.toList_appendList, List.filter_append, hold, Sketch.duplicates_grow]
    refine congrArg _ (hfound.trans ?_)
    split
    next column key declared _ =>
      rw [taken, Option.map_map]
      rfl
    next => rfl

theorem trim_keyAt? (h : read options checker lines = .ok reading) {id : Nat} {key : String}
    (hkey : Sketch.keyAt? reading.entries id = some key) :
    key ≠ "" ∧ Text.trim key.toList = key.toList := by
  refine read_of_invariant (P := fun reading => ∀ id key, Sketch.keyAt? reading.entries id =
    some key → key ≠ "" ∧ Text.trim key.toList = key.toList) ?_ ?_ h id key hkey
  · intro reading text _ next hold hfeed
    rcases feed_cases hfeed with ⟨_, rfl⟩ | ⟨line, _, ⟨_, rfl⟩ | ⟨_, _, rfl⟩⟩
    · exact hold
    · exact hold
    · intro id key hkey
      rcases Sketch.keyAt?_grow hkey with hbefore | ⟨column, declared, hgrowth⟩
      · exact hold id key hbefore
      · obtain ⟨_, hname⟩ := Line.exists_excerpt_of_scope hgrowth
        have htrim : key.toList = Text.trim line.rest := Text.toList_of_ofSuffix hname
        refine ⟨Text.text_ne_of_ofSuffix hname, ?_⟩
        rw [htrim, Text.trim_trim]
  · intro id key hkey
    cases id <;> contradiction

end Reading
end Dialogue
