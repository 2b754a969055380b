import Dialogue.Proofs.Parse.Openers
import Dialogue.Proofs.Parse.Trial

/-! Findings: which line a diagnostic is about. Those that are found while reading carry the
number of the line that is read, and those that are found later carry the number of a line
that is in the tree. -/
namespace Dialogue

/-- Errors that are found when a line is read, and neither before nor later. -/
def Cause.isReadError : Cause → Bool
  | tooDeep => true
  | nothingAfter _ => true
  | duplicateScope .. => true
  | rejectedCondition _ => true
  | _ => false

theorem Cause.severity_of_isReadError {cause : Cause} (h : cause.isReadError = true) :
    cause.severity = .error := by
  cases cause <;> first | rfl | contradiction

inductive Line.Found (line : Line) : Diagnostic → Prop
  | error (column : Nat) {cause : Cause} (h : cause.isReadError = true) :
      Found line (line.complaint column cause)
  | ignored {extra : Text.Excerpt} (hmarker : line.marker = .back)
      (hextra : line.excerpt? = some extra) :
      Found line (line.complaint extra.column (.ignoredText extra.text))

namespace Line

namespace Found

variable {line : Line} {diagnostic : Diagnostic}

theorem line_eq (h : line.Found diagnostic) : diagnostic.line = line.number := by
  cases h <;> rfl

theorem cause_ne (h : line.Found diagnostic) : diagnostic.cause ≠ .invalidDedent := by
  cases h with
  | error _ hcause =>
    rintro rfl
    contradiction
  | ignored => exact nofun

end Found

variable (options : Options) (judge : Query → Option Rejection) (taken : String → Option Nat)
  (line : Line)

theorem found_misaligned : ∀ diagnostic ∈ line.misaligned, line.Found diagnostic := by
  intro diagnostic hmem
  unfold misaligned at hmem
  split at hmem
  · contradiction
  · rw [List.mem_singleton.mp hmem]
    exact .error _ rfl

private theorem found_append_complaint (column : Nat) {cause : Cause}
    (h : cause.isReadError = true) :
    ∀ diagnostic ∈ line.misaligned ++ [line.complaint column cause], line.Found diagnostic := by
  intro diagnostic hmem
  rcases List.mem_append.mp hmem with hearly | hlate
  · exact line.found_misaligned diagnostic hearly
  · rw [List.mem_singleton.mp hlate]
    exact .error column h

theorem found_singleton (column : Nat) {cause : Cause} (h : cause.isReadError = true) :
    ∀ diagnostic ∈ [line.complaint column cause], line.Found diagnostic := by
  intro diagnostic hmem
  rw [List.mem_singleton.mp hmem]
  exact .error column h

private theorem found_scopeEffect :
    ∀ diagnostic ∈ (line.scopeEffect options taken).diagnostics, line.Found diagnostic := by
  unfold scopeEffect
  split
  · exact line.found_misaligned
  · cases line.excerpt? with
    | none => exact line.found_append_complaint _ rfl
    | some name =>
      dsimp only
      cases taken name.text with
      | none => exact line.found_misaligned
      | some first =>
        cases options.duplicates with
        | fail => exact line.found_misaligned
        | report => exact line.found_append_complaint _ rfl

private theorem found_choiceEffect :
    ∀ diagnostic ∈ (line.choiceEffect judge).diagnostics, line.Found diagnostic := by
  unfold choiceEffect
  cases line.excerpt? with
  | none => exact line.found_singleton _ rfl
  | some choice =>
    dsimp only
    cases Guarded.split? choice.text.toList with
    | none => exact nofun
    | some parts =>
      dsimp only
      unfold guardedEffect
      by_cases hcondition : parts.condition = ""
      · rw [if_pos hcondition]
        exact line.found_singleton _ rfl
      · rw [if_neg hcondition]
        cases judge (.condition parts.condition) with
        | some rejection => exact line.found_singleton _ rfl
        | none => exact nofun

theorem found_effect :
    ∀ diagnostic ∈ (line.effect options judge taken).diagnostics, line.Found diagnostic := by
  unfold effect
  cases hmarker : line.marker with
  | scope => exact line.found_scopeEffect options taken
  | choice => exact line.found_choiceEffect judge
  | comment => exact nofun
  | command =>
    cases line.excerpt? with
    | none => exact line.found_singleton _ rfl
    | some => exact nofun
  | jump =>
    cases line.excerpt? with
    | none => exact line.found_singleton _ rfl
    | some => exact nofun
  | text =>
    cases line.excerpt? with
    | none => exact nofun
    | some => exact nofun
  | back =>
    cases hextra : line.excerpt? with
    | none => exact nofun
    | some extra =>
      intro diagnostic hmem
      obtain rfl := List.mem_singleton.mp hmem
      exact .ignored hmarker hextra

end Line

theorem Growth.exists_jump_of_mem_links {growth : Growth} {id number column : Nat} {link : Link}
    (h : link ∈ growth.links id number column) :
    ∃ start key target, growth = .leaf start (.jump key target) ∧
      link = ⟨id, key, number, column⟩ := by
  unfold links at h
  split at h
  · exact ⟨_, _, _, rfl, List.mem_singleton.mp h⟩
  · contradiction

namespace Reading

variable {options : Options} {checker : Checker} {lines : List String} {reading : Reading}
  {i j : Nat}

/-- What is found at a line. -/
theorem exists_found (h : read options checker lines = .ok reading) (hi : i < lines.length) :
    ∃ found : List Diagnostic, (stage options checker lines (i + 1)).diagnostics.toList =
        (stage options checker lines i).diagnostics.toList ++ found ∧
      ∀ diagnostic ∈ found, ∃ line, Line.at? lines i = some line ∧ line.Found diagnostic := by
  rcases stage_cases h hi with ⟨_, hnext⟩ | ⟨line, hat, ⟨_, hnext⟩ | ⟨_, hnext⟩⟩
  · refine ⟨[], ?_, nofun⟩
    rw [hnext, List.append_nil]
  · refine ⟨[line.complaint line.column .tooDeep], ?_, fun diagnostic hmem => ?_⟩
    · rw [hnext, Array.toList_push]
    · exact ⟨line, hat, line.found_singleton _ rfl diagnostic hmem⟩
  · refine ⟨((stage options checker lines i).effect options checker line).diagnostics, ?_,
      fun diagnostic hmem => ?_⟩
    · rw [hnext, absorb, Array.toList_appendList]
    · exact ⟨line, hat, line.found_effect options _ _ diagnostic hmem⟩

theorem line_eq_of_found {diagnostic : Diagnostic}
    (h : ∃ line, Line.at? lines i = some line ∧ line.Found diagnostic) : diagnostic.line = i := by
  obtain ⟨line, hat, hfound⟩ := h
  exact hfound.line_eq.trans (Line.number_of_at? hat)

theorem exists_line_of_mem_diagnostics (h : read options checker lines = .ok reading)
    (hi : i ≤ lines.length) :
    ∀ diagnostic ∈ (stage options checker lines i).diagnostics.toList, diagnostic.line < i ∧
      ∃ line, Line.at? lines diagnostic.line = some line ∧ line.Found diagnostic := by
  induction i with
  | zero => exact nofun
  | succ i ih =>
    obtain ⟨found, hnext, hfound⟩ := exists_found h hi
    intro diagnostic hmem
    rw [hnext] at hmem
    rcases List.mem_append.mp hmem with hold | hnew
    · exact (ih (Nat.le_of_succ_le hi) diagnostic hold).imp_left Nat.lt_succ_of_lt
    · have hline := line_eq_of_found (hfound diagnostic hnew)
      exact ⟨hline ▸ Nat.lt_succ_self i, hline ▸ hfound diagnostic hnew⟩

theorem sorted_diagnostics (h : read options checker lines = .ok reading)
    (hi : i ≤ lines.length) :
    (stage options checker lines i).diagnostics.toList.Pairwise (·.line ≤ ·.line) := by
  induction i with
  | zero => exact .nil
  | succ i ih =>
    obtain ⟨found, hnext, hfound⟩ := exists_found h hi
    rw [hnext]
    refine List.pairwise_append.mpr ⟨ih (Nat.le_of_succ_le hi), ?_, fun early hearly late hlate => ?_⟩
    · refine List.pairwise_of_forall_mem_list fun first hfirst second hsecond => ?_
      have hline := line_eq_of_found (hfound first hfirst)
      exact Nat.le_of_eq (hline.trans (line_eq_of_found (hfound second hsecond)).symm)
    · rw [line_eq_of_found (hfound late hlate)]
      exact Nat.le_of_lt
        (exists_line_of_mem_diagnostics h (Nat.le_of_succ_le hi) early hearly).1

theorem filter_diagnostics_stage (h : read options checker lines = .ok reading) (hij : i < j)
    (hj : j ≤ lines.length) :
    (stage options checker lines j).diagnostics.toList.filter (·.line = i) =
      (stage options checker lines (i + 1)).diagnostics.toList.filter (·.line = i) := by
  induction j with
  | zero => contradiction
  | succ j ih =>
    rcases Nat.lt_or_eq_of_le (Nat.le_of_lt_succ hij) with hlt | rfl
    · obtain ⟨found, hnext, hfound⟩ := exists_found h hj
      have hnone : found.filter (·.line = i) = [] := by
        refine List.filter_eq_nil_iff.mpr fun diagnostic hmem => ?_
        have hline := line_eq_of_found (hfound diagnostic hmem)
        rw [decide_eq_true_eq]
        omega
      rw [hnext, List.filter_append, hnone, List.append_nil]
      exact ih hlt (Nat.le_of_succ_le hj)
    · rfl

/-- What is found at a line is all that reading says about it. -/
theorem filter_diagnostics_eq (h : read options checker lines = .ok reading)
    (hi : i < lines.length) {found : List Diagnostic}
    (hnext : (stage options checker lines (i + 1)).diagnostics.toList =
      (stage options checker lines i).diagnostics.toList ++ found) :
    reading.diagnostics.toList.filter (·.line = i) = found := by
  have hlast := filter_diagnostics_stage h hi (Nat.le_refl _)
  rw [stage_length h] at hlast
  have hold : (stage options checker lines i).diagnostics.toList.filter (·.line = i) = [] := by
    refine List.filter_eq_nil_iff.mpr fun diagnostic hmem => ?_
    have hline := (exists_line_of_mem_diagnostics h (Nat.le_of_lt hi) diagnostic hmem).1
    rw [decide_eq_true_eq]
    omega
  obtain ⟨other, hother, hfound⟩ := exists_found h hi
  obtain rfl : found = other := List.append_cancel_left (hnext.symm.trans hother)
  rw [hlast, hnext, List.filter_append, hold, List.nil_append, List.filter_eq_self]
  exact fun diagnostic hmem => decide_eq_true (line_eq_of_found (hfound diagnostic hmem))

theorem filter_diagnostics_of_absorb (h : read options checker lines = .ok reading)
    (hi : i < lines.length) {line : Line} {effect : Effect}
    (hnext : stage options checker lines (i + 1) =
      { stage options checker lines i with lineCount := i + 1 }.absorb line effect) :
    reading.diagnostics.toList.filter (·.line = i) = effect.diagnostics := by
  refine filter_diagnostics_eq h hi ?_
  rw [hnext, absorb, Array.toList_appendList]

theorem filter_diagnostics_of_deep (h : read options checker lines = .ok reading) {line : Line}
    (hat : Line.at? lines line.number = some line)
    (hdeep : (stage options checker lines line.number).room < line.depth) :
    reading.diagnostics.toList.filter (·.line = line.number) =
      [line.complaint line.column .tooDeep] := by
  have hlt := Line.lt_length_of_at? hat
  refine filter_diagnostics_eq h hlt ?_
  rcases stage_cases h hlt with ⟨hnone, _⟩ | ⟨other, hother, ⟨_, hnext⟩ | ⟨hfits, _⟩⟩
  · rw [hat] at hnone
    contradiction
  · rw [hat] at hother
    obtain rfl := Option.some.inj hother
    rw [hnext, Array.toList_push]
  · rw [hat] at hother
    obtain rfl := Option.some.inj hother
    exact absurd hfits (Nat.not_le.mpr hdeep)

end Reading

namespace Progress

variable {options : Options} {checker : Checker} {lines : List String} {reading : Reading} {i : Nat}

theorem exists_admits_of_link (h : Reading.read options checker lines = .ok reading)
    (hi : i ≤ lines.length) :
    ∀ link ∈ (Reading.stage options checker lines i).links.toList,
      ∃ line, Admits options checker lines line ∧ Creates options checker lines line link.node ∧
        link.line = line.number ∧ link.column = line.restColumn := by
  induction i with
  | zero => exact nofun
  | succ i ih =>
    have hold := ih (Nat.le_of_succ_le hi)
    rcases admits_cases h hi with ⟨_, found, _, hnext⟩ | ⟨line, hline, rfl, hnext⟩
    · rw [hnext]
      exact hold
    · intro link hmem
      have hentries := congrArg Reading.entries hnext
      rw [hnext, Reading.absorb, Array.toList_appendList] at hmem
      rcases List.mem_append.mp hmem with hbefore | hnew
      · exact hold link hbefore
      · obtain ⟨start, key, target, hgrowth, rfl⟩ := Growth.exists_jump_of_mem_links hnew
        refine ⟨line, hline, (creates_iff h).mpr ⟨Nat.le_refl _, ?_⟩, rfl, rfl⟩
        rw [hentries, Reading.absorb, hgrowth, Sketch.grow, List.length_append]
        exact Nat.lt_succ_self _

end Progress

section Parse

variable {options : Options} {checker : Checker} {lines : List String} {script : Script}
  {reading : Reading}

theorem exists_found_of_ok (h : (parseLines options checker lines).result = .ok script)
    (hread : Reading.read options checker lines = .ok reading) :
    ∃ found : List Diagnostic, script.diagnostics = reading.diagnostics.toList ++ found ∧
      ∀ diagnostic ∈ found, diagnostic.cause.severity = .error ∧
        diagnostic.cause ≠ .invalidDedent ∧
        ∃ line id, Progress.Admits options checker lines line ∧
          Progress.Creates options checker lines line id ∧ diagnostic.line = line.number := by
  obtain ⟨other, hother, hsettled⟩ := settled_of_ok h
  obtain rfl : other = reading := Except.ok.inj (hother.symm.trans hread)
  have hdrawn := hsettled.drawn
  have hlinks := Progress.exists_admits_of_link hread (Nat.le_refl _)
  rw [Reading.stage_length hread] at hlinks
  refine ⟨_, hsettled.diagnostics.trans (List.append_assoc ..), ?_⟩
  intro diagnostic hmem
  rcases List.mem_append.mp hmem with hlink | hnode
  · obtain ⟨link, hlink, hcomplaint⟩ := List.mem_filterMap.mp hlink
    obtain ⟨line, hline, hcreates, hnumber, _⟩ := hlinks link hlink
    rw [(Link.complaint?_eq_some_iff.mp hcomplaint).2]
    exact ⟨rfl, nofun, line, link.node, hline, hcreates, hnumber⟩
  · obtain ⟨⟨id, rejection⟩, hrejected, rfl⟩ := List.mem_map.mp hnode
    obtain ⟨before, after, text, hsplit, htext, _⟩ := Review.mem_rejections_iff.mp hrejected
    have hid : id ∈ (Progress.read options checker lines).linked.walk.reverse := by
      rw [hsplit]
      exact List.mem_append_right before List.mem_cons_self
    obtain ⟨hpos, hlt⟩ := hdrawn.shaped.mem_walk_iff.mp (List.mem_reverse.mp hid)
    have hplain := Tree.isScope_of_command? htext
    rw [hdrawn.isScope] at hplain
    rw [hdrawn.size_eq] at hlt
    obtain ⟨line, hline, hcreates, hstands⟩ := Progress.exists_stands hread hpos hlt hplain
    exact ⟨rfl, nofun, line, id, hline, hcreates, (hdrawn.lineOf id).trans hstands.lineAt⟩

theorem filter_diagnostics_of_ok (h : (parseLines options checker lines).result = .ok script)
    {line : Line} (hat : Line.at? lines line.number = some line)
    (hdeep : Progress.room options checker lines line.number < line.depth) :
    script.diagnostics.filter (·.line = line.number) =
      [⟨line.number, line.column, .tooDeep⟩] := by
  obtain ⟨reading, hread, _⟩ := exists_reading_of_ok h
  obtain ⟨found, hfound, hlater⟩ := exists_found_of_ok h hread
  have hroom := Progress.room_eq hread (Nat.le_of_lt (Line.lt_length_of_at? hat))
  have hnone : found.filter (·.line = line.number) = [] := by
    refine List.filter_eq_nil_iff.mpr fun diagnostic hmem => ?_
    obtain ⟨_, _, other, _, hother, _, hnumber⟩ := hlater diagnostic hmem
    rw [decide_eq_true_eq, hnumber]
    intro hsame
    have hotherAt := hother.at?
    rw [hsame, hat] at hotherAt
    obtain rfl := Option.some.inj hotherAt
    exact Nat.not_lt.mpr hother.depth_le hdeep
  rw [hfound, List.filter_append, hnone, List.append_nil]
  exact Reading.filter_diagnostics_of_deep hread hat (hroom ▸ hdeep)

theorem cause_ne_invalidDedent (h : (parseLines options checker lines).result = .ok script) :
    ∀ diagnostic ∈ script.diagnostics, diagnostic.cause ≠ .invalidDedent := by
  intro diagnostic hmem
  obtain ⟨reading, hread, _⟩ := exists_reading_of_ok h
  obtain ⟨found, hfound, hlater⟩ := exists_found_of_ok h hread
  have hearly := Reading.exists_line_of_mem_diagnostics hread (Nat.le_refl _)
  rw [Reading.stage_length hread] at hearly
  rw [hfound] at hmem
  rcases List.mem_append.mp hmem with hold | hnew
  · obtain ⟨_, line, _, hline⟩ := hearly diagnostic hold
    exact hline.cause_ne
  · exact (hlater diagnostic hnew).2.1

end Parse
end Dialogue
