import Dialogue.Proofs.Parse.Lenient
import Dialogue.Proofs.Parse.Moved
import Dialogue.Proofs.Parse.Names

/-! What the options matter for. The policy for duplicates shows first in a section whose name is
taken, and strictness in an indented section line. Up to there, parses under different options
go through the same states. -/
namespace Dialogue
namespace Line

variable {strict : Bool} {judge : Query → Option Rejection} {taken : String → Option Nat}
  {line : Line} {error : ParseError}

theorem failure_effect (options : Options) (judge : Query → Option Rejection)
    (taken : String → Option Nat) (line : Line) :
    (line.effect options judge taken).failure =
      match options.duplicates with
      | .fail => (line.declared? options).bind fun key =>
          (taken key).map (.duplicateScope key line.number)
      | .report => none := by
  cases hmarker : line.marker with
  | scope =>
    simp only [effect, hmarker, scopeEffect, declared?, true_and]
    split
    next => cases options.duplicates <;> rfl
    next =>
      cases line.excerpt? with
      | none => cases options.duplicates <;> rfl
      | some name =>
        rw [Option.map_some, Option.bind_some]
        dsimp only
        cases taken name.text <;> cases options.duplicates <;> rfl
  | _ =>
    have hnone : line.declared? options = none := by
      rw [declared?, hmarker, if_neg fun h => Marker.noConfusion h.1]
    have hfree : ∀ key, line.declared? options = some key → taken key = none := by
      rw [hnone]
      exact fun key hkey => absurd hkey (Option.some_ne_none key).symm
    rw [effect_of_free hfree, failure_effect_of_free, hnone]
    cases options.duplicates <;> rfl

theorem effect_report_eq (h : (line.effect ⟨.fail, strict⟩ judge taken).failure = none) :
    line.effect ⟨.report, strict⟩ judge taken = line.effect ⟨.fail, strict⟩ judge taken := by
  have hfree := (failure_eq_none_iff rfl).mp h
  have hreport : ∀ key, line.declared? ⟨.report, strict⟩ = some key → taken key = none := hfree
  rw [effect_of_free hreport, effect_of_free hfree]
  unfold effect
  cases line.marker with
  | scope => simp only [scopeEffect]
  | _ => rfl

theorem exists_taken_of_failure
    (h : (line.effect ⟨.fail, strict⟩ judge taken).failure = some error) :
    ∃ name first, line.marker = .scope ∧ line.excerpt? = some name ∧
      error = .duplicateScope name.text line.number first ∧
      (line.effect ⟨.report, strict⟩ judge taken).diagnostics =
        line.misaligned ++ [line.complaint name.column (.duplicateScope name.text first)] := by
  rw [failure_effect] at h
  obtain ⟨key, hkey, hmap⟩ := Option.bind_eq_some_iff.mp h
  obtain ⟨first, hfirst, rfl⟩ := Option.map_eq_some_iff.mp hmap
  unfold declared? at hkey
  split at hkey
  next hscope =>
    obtain ⟨name, hname, rfl⟩ := Option.map_eq_some_iff.mp hkey
    refine ⟨name, first, hscope.1, hname, rfl, ?_⟩
    have hlax : ¬ (line.depth ≠ 1 ∧ (⟨.report, strict⟩ : Options).strictIndentation) := hscope.2
    simp only [effect, hscope.1, scopeEffect, if_neg hlax, hname, hfirst]
  next => contradiction

theorem effect_strict_eq (duplicates : DuplicatePolicy) (judge : Query → Option Rejection)
    (taken : String → Option Nat) (h : line.marker = .scope → line.depth = 1) :
    line.effect ⟨duplicates, true⟩ judge taken = line.effect ⟨duplicates, false⟩ judge taken := by
  unfold effect
  cases hmarker : line.marker with
  | scope =>
    have hdepth := h hmarker
    simp only [scopeEffect, hdepth, ne_eq, not_true_eq_false, false_and]
  | _ => rfl

end Line

namespace Progress

variable {strict : Bool} {checker : Checker} {progress : Progress} {lines : List String}

/-- The options enter a parse through what a line does that is not too deep. -/
theorem place_cases (checker : Checker) (progress : Progress) (line : Line) :
    (∃ after, ∀ options, progress.place options checker line = after) ∨
    line.depth ≤ progress.draft.opened.length ∧ ∃ draft : Draft, ∀ options,
      progress.place options checker line =
        ({ progress with draft } : Progress).absorb line (line.effect options
          (progress.judge checker) ({ progress with draft } : Progress).taken) := by
  unfold place
  split
  next => exact .inl ⟨_, fun _ => rfl⟩
  next hfits =>
    split
    next draft _ =>
      exact .inr ⟨Nat.le_of_not_lt hfits, draft, fun options => add_eq options checker ..⟩
    next => exact .inl ⟨_, fun _ => rfl⟩

theorem place_report_eq {line : Line}
    (h : ∀ error, (progress.place ⟨.fail, strict⟩ checker line).status ≠ .failed error) :
    progress.place ⟨.report, strict⟩ checker line =
      progress.place ⟨.fail, strict⟩ checker line := by
  rcases place_cases checker progress line with ⟨after, hafter⟩ | ⟨_, draft, hdraft⟩
  · rw [hafter, hafter]
  · rw [hdraft] at h
    rw [hdraft, hdraft]
    cases hfailure : (line.effect ⟨.fail, strict⟩ (progress.judge checker)
        ({ progress with draft } : Progress).taken).failure with
    | none => rw [Line.effect_report_eq hfailure]
    | some error =>
      refine absurd ?_ (h error)
      rw [absorb, hfailure]

private theorem feed_report_eq {text : String}
    (h : ∀ error, (progress.feed ⟨.fail, strict⟩ checker text).status ≠ .failed error) :
    progress.feed ⟨.report, strict⟩ checker text = progress.feed ⟨.fail, strict⟩ checker text := by
  cases hstatus : progress.status with
  | failed => rw [feed, feed, hstatus]
  | stopped => rw [feed, feed, hstatus]
  | running =>
    rw [feed_of_running hstatus] at h ⊢
    rw [feed_of_running hstatus]
    cases hline : Line.read? progress.lineCount text.toList with
    | none => rfl
    | some line =>
      rw [hline] at h
      exact place_report_eq h

private theorem foldl_report_eq
    (h : ∀ error, (lines.foldl (feed ⟨.fail, strict⟩ checker) progress).status ≠ .failed error) :
    lines.foldl (feed ⟨.report, strict⟩ checker) progress =
      lines.foldl (feed ⟨.fail, strict⟩ checker) progress := by
  induction lines generalizing progress with
  | nil => rfl
  | cons text rest ih =>
    rw [List.foldl_cons] at h
    have hfed : ∀ error, (progress.feed ⟨.fail, strict⟩ checker text).status ≠ .failed error := by
      intro error hfailed
      rw [foldl_feed_of_failed hfailed] at h
      exact h error hfailed
    rw [List.foldl_cons, List.foldl_cons, feed_report_eq hfed]
    exact ih h

end Progress

namespace Reading

variable {options : Options} {strict : Bool} {checker : Checker} {lines : List String}
  {reading next : Reading} {text : String} {error : ParseError}

private theorem feed_report_eq (h : reading.feed ⟨.fail, strict⟩ checker text = .ok next) :
    reading.feed ⟨.report, strict⟩ checker text = .ok next := by
  rcases feed_cases h with ⟨hblank, rfl⟩ | ⟨line, hline, ⟨hdeep, rfl⟩ | ⟨hfits, hfailure, rfl⟩⟩
  · simp only [feed, hblank]
  · simp only [feed, hline, place, if_pos hdeep]
  · have heffect : reading.effect ⟨.report, strict⟩ checker line =
        reading.effect ⟨.fail, strict⟩ checker line := Line.effect_report_eq hfailure
    have hcounted : ({ reading with lineCount := reading.lineCount + 1 } : Reading).effect
        ⟨.report, strict⟩ checker line = reading.effect ⟨.fail, strict⟩ checker line := heffect
    simp only [feed, hline, place, if_neg (Nat.not_lt.mpr hfits), hcounted, hfailure]

private theorem foldlM_report_eq
    (h : lines.foldlM (feed ⟨.fail, strict⟩ checker) reading = .ok next) :
    lines.foldlM (feed ⟨.report, strict⟩ checker) reading = .ok next := by
  induction lines generalizing reading with
  | nil => exact h
  | cons text rest ih =>
    rw [List.foldlM_cons] at h ⊢
    cases hfed : reading.feed ⟨.fail, strict⟩ checker text with
    | error =>
      rw [hfed] at h
      contradiction
    | ok middle =>
      rw [hfed] at h
      rw [feed_report_eq hfed]
      exact ih h

theorem exists_failure_of_feed (h : reading.feed options checker text = .error error) :
    ∃ line, Line.read? reading.lineCount text.toList = some line ∧ line.depth ≤ reading.room ∧
      (reading.effect options checker line).failure = some error := by
  unfold feed at h
  cases hline : Line.read? reading.lineCount text.toList with
  | none =>
    rw [hline] at h
    contradiction
  | some line =>
    rw [hline] at h
    simp only [place] at h
    split at h
    next => contradiction
    next hfits =>
      refine ⟨line, rfl, Nat.le_of_not_lt hfits, ?_⟩
      split at h
      next found hfailure => exact hfailure.trans (congrArg some (Except.error.inj h))
      next => contradiction

theorem exists_feed_report (strict : Bool) (checker : Checker) (reading : Reading) (text : String) :
    ∃ next, reading.feed ⟨.report, strict⟩ checker text = .ok next := by
  unfold feed
  cases Line.read? reading.lineCount text.toList with
  | none => exact ⟨_, rfl⟩
  | some line =>
    simp only [place, effect, Line.failure_effect]
    split
    · exact ⟨_, rfl⟩
    · exact ⟨_, rfl⟩

private theorem exists_foldlM_report (strict : Bool) (checker : Checker) (lines : List String)
    (reading : Reading) :
    ∃ next, lines.foldlM (feed ⟨.report, strict⟩ checker) reading = .ok next := by
  induction lines generalizing reading with
  | nil => exact ⟨reading, rfl⟩
  | cons text rest ih =>
    obtain ⟨middle, hmiddle⟩ := exists_feed_report strict checker reading text
    rw [List.foldlM_cons, hmiddle]
    exact ih middle

theorem exists_of_foldlM_error (h : lines.foldlM (feed options checker) reading = .error error) :
    ∃ before text after last, lines = before ++ text :: after ∧
      before.foldlM (feed options checker) reading = .ok last ∧
      last.feed options checker text = .error error := by
  induction lines generalizing reading with
  | nil => contradiction
  | cons text rest ih =>
    rw [List.foldlM_cons] at h
    cases hfed : reading.feed options checker text with
    | error found =>
      rw [hfed] at h
      exact ⟨[], text, rest, reading, rfl, rfl, hfed.trans h⟩
    | ok middle =>
      rw [hfed] at h
      obtain ⟨before, other, after, last, rfl, hbefore, hother⟩ := ih h
      refine ⟨text :: before, other, after, last, rfl, ?_, hother⟩
      rw [List.foldlM_cons, hfed]
      exact hbefore

theorem prefix_diagnostics (h : lines.foldlM (feed options checker) reading = .ok next) :
    reading.diagnostics.toList <+: next.diagnostics.toList := by
  refine foldlM_of_invariant
    (P := fun later => reading.diagnostics.toList <+: later.diagnostics.toList) ?_
    (List.prefix_refl _) h
  intro later text _ last hlater hfeed
  rcases feed_cases hfeed with ⟨_, rfl⟩ | ⟨line, _, ⟨_, rfl⟩ | ⟨_, _, rfl⟩⟩
  · exact hlater
  · refine hlater.trans ?_
    rw [Array.toList_push]
    exact List.prefix_append ..
  · refine hlater.trans ?_
    rw [absorb, Array.toList_appendList]
    exact List.prefix_append ..

theorem diagnostics_of_feed (h : reading.feed options checker text = .ok next) {line : Line}
    (hline : Line.read? reading.lineCount text.toList = some line)
    (hfits : line.depth ≤ reading.room) :
    next.diagnostics.toList = reading.diagnostics.toList ++
      (reading.effect options checker line).diagnostics := by
  rcases feed_cases h with ⟨hblank, _⟩ | ⟨other, hother, ⟨hdeep, _⟩ | ⟨_, _, rfl⟩⟩
  · rw [hline] at hblank
    contradiction
  · obtain rfl := Option.some.inj (hline.symm.trans hother)
    exact absurd hfits (Nat.not_le.mpr hdeep)
  · obtain rfl := Option.some.inj (hline.symm.trans hother)
    rw [absorb, Array.toList_appendList]

theorem exists_taken_of_error (h : read ⟨.fail, strict⟩ checker lines = .error error)
    (hreport : read ⟨.report, strict⟩ checker lines = .ok reading) :
    ∃ line name first found more, Line.at? lines line.number = some line ∧
      line.marker = .scope ∧ line.excerpt? = some name ∧
      error = .duplicateScope name.text line.number first ∧
      found.filter (·.cause.isDuplicate) = [] ∧
      reading.diagnostics.toList =
        found ++ line.complaint name.column (.duplicateScope name.text first) :: more := by
  obtain ⟨before, text, after, last, rfl, hbefore, hfailed⟩ := exists_of_foldlM_error h
  obtain ⟨line, hline, hfits, hfailure⟩ := exists_failure_of_feed hfailed
  obtain ⟨name, first, hmarker, hname, rfl, heffect⟩ := Line.exists_taken_of_failure hfailure
  have hcount : last.lineCount = before.length := lineCount_of_read hbefore
  have hat : Line.at? (before ++ text :: after) line.number = some line := by
    rw [Line.number_of_read? hline, hcount, Line.at?, List.getElem?_append_right (Nat.le_refl _),
      Nat.sub_self, List.getElem?_cons_zero, Option.bind_some, ← hcount]
    exact hline
  obtain ⟨next, hnext⟩ := exists_feed_report strict checker last text
  have hrest : after.foldlM (feed ⟨.report, strict⟩ checker) next = .ok reading := by
    rw [read, List.foldlM_append, foldlM_report_eq hbefore] at hreport
    change (text :: after).foldlM (feed ⟨.report, strict⟩ checker) last = _ at hreport
    rw [List.foldlM_cons, hnext] at hreport
    exact hreport
  obtain ⟨more, hmore⟩ := prefix_diagnostics hrest
  refine ⟨line, name, first, last.diagnostics.toList ++ line.misaligned, more, hat, hmarker, hname,
    rfl, ?_, ?_⟩
  · rw [List.filter_append, filter_isDuplicate_of_fail rfl hbefore,
      Line.filter_isDuplicate_misaligned, List.append_nil]
  · rw [← hmore, diagnostics_of_feed hnext hline hfits, effect, heffect]
    simp only [List.append_assoc, List.cons_append, List.nil_append]

end Reading

/-- The first section whose name is taken, as a script reports it. -/
structure Script.Repeats (script : Script) (lines : List String) (key : String)
    (line firstLine : Nat) : Prop where
  reported : ∃ column, script.diagnostics.find? (·.cause.isDuplicate) =
    some ⟨line, column, .duplicateScope key firstLine⟩
  named : ∃ source, Line.at? lines line = some source ∧ source.marker = .scope ∧
    source.excerpt?.map (·.text) = some key
  first : ∃ id, script.tree.find? key = some id ∧ script.tree.lineOf id = firstLine

def Progress.MeetsIndented (options : Options) (checker : Checker) (lines : List String) : Prop :=
  ∃ i line, Line.at? lines i = some line ∧ line.marker = .scope ∧ line.depth ≠ 1 ∧
    (before options checker lines i).status = .running ∧
    line.depth ≤ (before options checker lines i).draft.opened.length

section Parse

variable {options : Options} {strict : Bool} {checker : Checker} {lines : List String}
  {script : Script} {error : ParseError}

theorem read_eq_error_of_result (h : (parseLines options checker lines).result = .error error) :
    Reading.read options checker lines = .error error := by
  cases hread : Reading.read options checker lines with
  | ok reading =>
    obtain ⟨script, hscript⟩ := exists_ok_of_read hread
    rw [h] at hscript
    contradiction
  | error found =>
    have hkeeps := Progress.keeps_read options checker lines
    rw [hread] at hkeeps
    have hfailed : (Progress.read options checker lines).status = .failed found := hkeeps
    unfold parseLines Progress.finish at h
    rw [hfailed] at h
    exact congrArg _ (Except.error.inj h)

/-- A parse that could have failed and did not is the one that reports. -/
theorem parseLines_report_eq (h : (parseLines ⟨.fail, strict⟩ checker lines).result = .ok script) :
    parseLines ⟨.report, strict⟩ checker lines = parseLines ⟨.fail, strict⟩ checker lines := by
  obtain ⟨reading, _, hmatches, _⟩ := exists_reading_of_ok h
  have hread : Progress.read ⟨.report, strict⟩ checker lines =
      Progress.read ⟨.fail, strict⟩ checker lines := by
    refine Progress.foldl_report_eq fun error hfailed => ?_
    rw [← Progress.read, hmatches.running] at hfailed
    contradiction
  rw [parseLines, parseLines, hread]

private theorem exists_ok_of_report (strict : Bool) (checker : Checker) (lines : List String) :
    ∃ script, (parseLines ⟨.report, strict⟩ checker lines).result = .ok script := by
  obtain ⟨reading, hread⟩ := Reading.exists_foldlM_report strict checker lines {}
  exact exists_ok_of_read hread

theorem repeats_of_error (h : (parseLines ⟨.fail, strict⟩ checker lines).result = .error error)
    (hscript : (parseLines ⟨.report, strict⟩ checker lines).result = .ok script) :
    ∃ key line firstLine, error = .duplicateScope key line firstLine ∧
      script.Repeats lines key line firstLine := by
  obtain ⟨whole, hwhole, hsettled⟩ := settled_of_ok hscript
  obtain ⟨line, name, first, found, more, hat, hmarker, hname, rfl, hfree, hdiagnostics⟩ :=
    Reading.exists_taken_of_error (read_eq_error_of_result h) hwhole
  have hfilter : script.diagnostics.filter (·.cause.isDuplicate) =
      line.complaint name.column (.duplicateScope name.text first) ::
        more.filter (·.cause.isDuplicate) := by
    rw [hsettled.filter_isDuplicate, hdiagnostics, List.filter_append, hfree, List.nil_append]
    rfl
  refine ⟨name.text, line.number, first, rfl, ⟨name.column, ?_⟩, ⟨line, hat, hmarker, ?_⟩, ?_⟩
  · rw [← List.head?_filter, hfilter]
    rfl
  · rw [hname]
    rfl
  · have hsections := hsettled.forall₂_duplicates hwhole
    rw [hfilter] at hsections
    generalize script.tree.scopes.filter _ = ids at hsections
    cases hsections with
    | cons hhead _ =>
      obtain ⟨key, id, _, hfind, hsame⟩ := hhead
      obtain ⟨rfl, hfirst⟩ := Cause.duplicateScope.inj (Diagnostic.mk.inj hsame).2.2
      exact ⟨id, hfind, hfirst.symm⟩

end Parse

namespace Progress

variable {options : Options} {checker : Checker} {lines : List String}

theorem place_strict_eq {progress : Progress} {line : Line} (duplicates : DuplicatePolicy)
    (h : line.depth ≤ progress.draft.opened.length → line.marker = .scope → line.depth = 1) :
    progress.place ⟨duplicates, true⟩ checker line =
      progress.place ⟨duplicates, false⟩ checker line := by
  rcases place_cases checker progress line with ⟨after, hafter⟩ | ⟨hfits, draft, hdraft⟩
  · rw [hafter, hafter]
  · rw [hdraft, hdraft, Line.effect_strict_eq duplicates _ _ (h hfits)]

/-- As long as no indented section line is met, strictness changes nothing. -/
theorem before_strict_eq {duplicates : DuplicatePolicy}
    (h : ¬ MeetsIndented ⟨duplicates, true⟩ checker lines) {i : Nat} (hi : i ≤ lines.length) :
    before ⟨duplicates, true⟩ checker lines i = before ⟨duplicates, false⟩ checker lines i := by
  induction i with
  | zero => rfl
  | succ i ih =>
    have hsame := ih (Nat.le_of_succ_le hi)
    have htext : lines[i]? = some lines[i] := List.getElem?_eq_getElem hi
    rw [before_succ htext, before_succ htext, ← hsame]
    cases hstatus : (before ⟨duplicates, true⟩ checker lines i).status with
    | failed => rw [feed, feed, hstatus]
    | stopped => rw [feed, feed, hstatus]
    | running =>
      have hcount := lineCount_before (Nat.le_of_succ_le hi) hstatus
      rw [feed_of_running hstatus, feed_of_running hstatus, hcount]
      cases hline : Line.read? i lines[i].toList with
      | none => rfl
      | some line =>
        refine place_strict_eq duplicates fun hfits hmarker => by_contra fun hdepth => h ?_
        have hat : Line.at? lines i = some line := by
          rw [Line.at?, htext]
          exact hline
        exact ⟨i, line, hat, hmarker, hdepth, hstatus, hfits⟩

end Progress

structure Compared (checker : Checker) (lines : List String) : Prop where
  report : ∀ strict, ∃ script, (parseLines ⟨.report, strict⟩ checker lines).result = .ok script
  ok_iff : ∀ strict script, (parseLines ⟨.fail, strict⟩ checker lines).result = .ok script ↔
    (parseLines ⟨.report, strict⟩ checker lines).result = .ok script ∧
      ∀ diagnostic ∈ script.diagnostics, diagnostic.cause.isDuplicate = false
  fails_iff : ∀ strict, (∃ error, (parseLines ⟨.fail, strict⟩ checker lines).result = .error error) ↔
    ∃ script, (parseLines ⟨.report, strict⟩ checker lines).result = .ok script ∧
      ∃ diagnostic ∈ script.diagnostics, diagnostic.cause.isDuplicate = true
  error_iff : ∀ strict key line firstLine,
    (parseLines ⟨.fail, strict⟩ checker lines).result =
        .error (.duplicateScope key line firstLine) ↔
      ∃ script, (parseLines ⟨.report, strict⟩ checker lines).result = .ok script ∧
        script.Repeats lines key line firstLine
  lax : ∀ duplicates, ¬ Progress.MeetsIndented ⟨duplicates, true⟩ checker lines →
    parseLines ⟨duplicates, true⟩ checker lines = parseLines ⟨duplicates, false⟩ checker lines

theorem Script.Repeats.exists_mem {script : Script} {lines : List String} {key : String}
    {line firstLine : Nat} (h : script.Repeats lines key line firstLine) :
    ∃ diagnostic ∈ script.diagnostics, diagnostic.cause.isDuplicate = true := by
  obtain ⟨column, hfound⟩ := h.reported
  exact ⟨_, List.mem_of_find?_eq_some hfound, rfl⟩

section Parse

variable {strict : Bool} {checker : Checker} {lines : List String} {script : Script}

theorem ok_iff_report :
    (parseLines ⟨.fail, strict⟩ checker lines).result = .ok script ↔
      (parseLines ⟨.report, strict⟩ checker lines).result = .ok script ∧
        ∀ diagnostic ∈ script.diagnostics, diagnostic.cause.isDuplicate = false := by
  constructor
  · intro h
    obtain ⟨reading, hread, hsettled⟩ := settled_of_ok h
    refine ⟨?_, (hsettled.nodup_of_fail hread rfl).2⟩
    rw [parseLines_report_eq h]
    exact h
  · rintro ⟨hscript, hnone⟩
    cases hresult : (parseLines ⟨.fail, strict⟩ checker lines).result with
    | ok other =>
      rw [← parseLines_report_eq hresult] at hresult
      exact hresult.symm.trans hscript
    | error error =>
      obtain ⟨key, line, firstLine, _, hrepeats⟩ := repeats_of_error hresult hscript
      obtain ⟨diagnostic, hmem, hduplicate⟩ := hrepeats.exists_mem
      rw [hnone diagnostic hmem] at hduplicate
      contradiction

theorem exists_error_of_report
    (hscript : (parseLines ⟨.report, strict⟩ checker lines).result = .ok script)
    (h : ∃ diagnostic ∈ script.diagnostics, diagnostic.cause.isDuplicate = true) :
    ∃ error, (parseLines ⟨.fail, strict⟩ checker lines).result = .error error := by
  obtain ⟨diagnostic, hmem, hduplicate⟩ := h
  cases hresult : (parseLines ⟨.fail, strict⟩ checker lines).result with
  | error error => exact ⟨error, rfl⟩
  | ok other =>
    obtain ⟨hother, hnone⟩ := ok_iff_report.mp hresult
    obtain rfl := Except.ok.inj (hother.symm.trans hscript)
    rw [hnone diagnostic hmem] at hduplicate
    contradiction

end Parse

/-- The policy for duplicates matters from the first name that is taken, strictness from the
first indented section line that is not too deep. -/
theorem options_matter_where_they_apply (checker : Checker) (lines : List String) :
    Compared checker lines := by
  constructor
  · exact fun strict => exists_ok_of_report strict checker lines
  · exact fun strict script => ok_iff_report
  · intro strict
    constructor
    · rintro ⟨error, herror⟩
      obtain ⟨script, hscript⟩ := exists_ok_of_report strict checker lines
      obtain ⟨key, line, firstLine, _, hrepeats⟩ := repeats_of_error herror hscript
      exact ⟨script, hscript, hrepeats.exists_mem⟩
    · rintro ⟨script, hscript, hduplicate⟩
      exact exists_error_of_report hscript hduplicate
  · intro strict key line firstLine
    constructor
    · intro herror
      obtain ⟨script, hscript⟩ := exists_ok_of_report strict checker lines
      obtain ⟨_, _, _, hsame, hrepeats⟩ := repeats_of_error herror hscript
      obtain ⟨rfl, rfl, rfl⟩ := ParseError.duplicateScope.inj hsame
      exact ⟨script, hscript, hrepeats⟩
    · rintro ⟨script, hscript, hrepeats⟩
      obtain ⟨error, herror⟩ := exists_error_of_report hscript hrepeats.exists_mem
      obtain ⟨_, _, _, rfl, hothers⟩ := repeats_of_error herror hscript
      obtain ⟨column, hfound⟩ := hrepeats.reported
      obtain ⟨_, hsame⟩ := hothers.reported
      obtain ⟨hline, _, hcause⟩ :=
        Diagnostic.mk.inj (Option.some.inj (hfound.symm.trans hsame))
      obtain ⟨hkey, hfirst⟩ := Cause.duplicateScope.inj hcause
      rw [hkey, hline, hfirst]
      exact herror
  · intro duplicates hnone
    have hread := Progress.before_strict_eq hnone (Nat.le_refl _)
    rw [Progress.before, Progress.before, List.take_length] at hread
    rw [parseLines, parseLines, hread]

/-- An indented section line that is too deep, and a name that is taken. -/
theorem options_matter_for_taken_name :
    let lines := ["= a", "\t\t= b", "= a", "# act"]
    Compared .lenient lines ∧
      ¬ Progress.MeetsIndented ⟨.report, true⟩ .lenient lines ∧
      (parseLines ⟨.fail, true⟩ .lenient lines).result = .error (.duplicateScope "a" 2 0) ∧
      ∃ script, (parseLines ⟨.report, false⟩ .lenient lines).result = .ok script ∧
        script.diagnostics = [⟨1, 2, .tooDeep⟩, ⟨2, 2, .duplicateScope "a" 0⟩] := by
  intro lines
  refine ⟨options_matter_where_they_apply .lenient lines, ?_, ?_, ?_⟩
  · rintro ⟨i, line, hat, hmarker, hdepth, _, hfits⟩
    have hdeep : ∀ i < 4, ∀ line, Line.at? lines i = some line → line.marker = .scope →
        line.depth ≠ 1 →
        (Progress.before ⟨.report, true⟩ .lenient lines i).draft.opened.length < line.depth := by
      decide +kernel
    have hlt := hdeep i (Line.lt_length_of_at? hat) line hat hmarker hdepth
    exact absurd hfits (Nat.not_le.mpr hlt)
  · decide +kernel
  · have hparsed : (parseLines ⟨.report, false⟩ .lenient lines).result.toOption.map
        Script.diagnostics = some [⟨1, 2, .tooDeep⟩, ⟨2, 2, .duplicateScope "a" 0⟩] := by
      decide +kernel
    exact exists_ok_of_map_toOption hparsed

end Dialogue
