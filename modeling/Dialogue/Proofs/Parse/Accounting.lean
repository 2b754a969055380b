import Dialogue.Proofs.Parse.Flawless

/-! Accounting for the lines. Each line that is not blank starts a node, or goes on with a
command, or is reported as an error, and never two of these. A script without errors tells all
that its lines say, but for the text behind return markers. -/
namespace Dialogue

def Tree.StartsOn (tree : Tree) (number : Nat) : Prop :=
  ∃ id, ∀ other, (other ≠ Tree.root ∧ other < tree.size ∧ tree.lineOf other = number) ↔ other = id

structure Script.ContinuesOn (script : Script) (options : Options) (checker : Checker)
    (lines : List String) (line : Line) : Prop where
  appends : ∃ id, Progress.Appends options checker lines line id ∧
    script.tree.lineOf id < line.number
  silent : ∀ diagnostic ∈ script.diagnostics, diagnostic.line ≠ line.number

structure Script.Reports (script : Script) (number : Nat) : Prop where
  absent : ∀ id, id ≠ Tree.root → id < script.tree.size → script.tree.lineOf id ≠ number
  reported : ∃ diagnostic ∈ script.diagnostics, diagnostic.line = number ∧
    diagnostic.isError = true

/-- What a line comes to, which is one thing and not another. -/
inductive Script.Accounts (script : Script) (options : Options) (checker : Checker)
    (lines : List String) (line : Line) : Prop
  | starts (hstarts : script.tree.StartsOn line.number)
      (hcontinues : ¬ script.ContinuesOn options checker lines line)
      (hreports : ¬ script.Reports line.number)
  | continues (hstarts : ¬ script.tree.StartsOn line.number)
      (hcontinues : script.ContinuesOn options checker lines line)
      (hreports : ¬ script.Reports line.number)
  | reports (hstarts : ¬ script.tree.StartsOn line.number)
      (hcontinues : ¬ script.ContinuesOn options checker lines line)
      (hreports : script.Reports line.number)

/-- A script in which every line is found again and every jump has its target. -/
structure Script.Complete (script : Script) (options : Options) (checker : Checker)
    (lines : List String) : Prop where
  walked : ∀ line, Line.at? lines line.number = some line → ∃ id ∈ script.tree.walk,
    script.tree.lineOf id = line.number ∨ Progress.Appends options checker lines line id
  aimed : ∀ id span key target,
    script.tree.get? id = some ⟨span, .leaf (.jump key target)⟩ → target ≠ none
  distinct : ∀ id other key, script.tree.label? id = some (.block (.scope (some key)) []) →
    script.tree.label? other = some (.block (.scope (some key)) []) → id = other
  warned : ∀ line, Line.at? lines line.number = some line →
    script.diagnostics.filter (·.line = line.number) = line.warnings

/-- The account of a script. Nodes that were cut off are part of it. -/
structure Script.Account (script : Script) (options : Options) (checker : Checker)
    (lines : List String) : Prop where
  lineCount : script.lineCount = lines.length
  blank : ∀ number, Line.at? lines number = none →
    (∀ id, id ≠ Tree.root → id < script.tree.size → script.tree.lineOf id ≠ number) ∧
      ∀ diagnostic ∈ script.diagnostics, diagnostic.line ≠ number
  accounts : ∀ line, Line.at? lines line.number = some line →
    script.Accounts options checker lines line
  size : ∃ numbers : List Nat, numbers.Pairwise (· < ·) ∧
    (∀ number, number ∈ numbers ↔ script.tree.StartsOn number) ∧
    script.tree.size = numbers.length + 1
  said : ∀ id, id ≠ Tree.root → id < script.tree.size → ∃ mark sources,
    script.tree.mark? id = some mark ∧ Line.Say sources mark ∧
      Progress.Sources options checker lines lines.length id sources
  complete : script.hasErrors = false → script.Complete options checker lines

section Parse

variable {options : Options} {checker : Checker} {lines : List String} {script : Script}
  {reading : Reading} {line : Line} {asked : Array Query} {whole : Tree} {id : NodeId}

private theorem Tree.Pruned.lineOf_eq_iff {tree : Tree} {rejected : List NodeId}
    (hpruned : tree.Pruned reading.entries rejected)
    (hread : Reading.read options checker lines = .ok reading)
    (hat : Line.at? lines line.number = some line) :
    (id ≠ Tree.root ∧ id < tree.size ∧ tree.lineOf id = line.number) ↔
      Progress.Creates options checker lines line id := by
  rw [← Progress.lineAt_eq_iff hread hat, hpruned.size_eq, hpruned.lineOf]
  exact and_congr_left' Nat.pos_iff_ne_zero.symm

/-- A tree has as many nodes, besides the root, as there are lines on which a node starts. -/
theorem Tree.Pruned.exists_numbers {tree : Tree} {rejected : List NodeId}
    (hpruned : tree.Pruned reading.entries rejected)
    (hread : Reading.read options checker lines = .ok reading) :
    ∃ numbers : List Nat, numbers.Pairwise (· < ·) ∧
      (∀ number, number ∈ numbers ↔ tree.StartsOn number) ∧ tree.size = numbers.length + 1 := by
  have hsize := hpruned.size_eq
  have hroot := hpruned.regular.length_pos
  have hids (id : Nat) : id ∈ List.range' 1 (tree.size - 1) ↔
      id ≠ Tree.root ∧ id < tree.size := by
    rw [List.mem_range'_1, Ne, Tree.root]
    omega
  refine ⟨(List.range' 1 (tree.size - 1)).map tree.lineOf, ?_, fun number => ?_, ?_⟩
  · refine List.pairwise_map.mpr (List.Pairwise.imp_of_mem ?_ List.pairwise_lt_range')
    intro id other hid hother hlt
    rw [hpruned.lineOf, hpruned.lineOf]
    refine Progress.lineAt_lt_lineAt hread (Nat.pos_of_ne_zero ((hids id).mp hid).1) hlt ?_
    exact hsize ▸ ((hids other).mp hother).2
  · rw [List.mem_map]
    constructor
    · rintro ⟨id, hid, rfl⟩
      obtain ⟨hne, hlt⟩ := (hids id).mp hid
      refine ⟨id, fun other => ⟨?_, ?_⟩⟩
      · rintro ⟨hother, hin, hline⟩
        rw [hpruned.lineOf, hpruned.lineOf] at hline
        exact Progress.eq_of_lineAt_eq hread (Nat.pos_of_ne_zero hother) (hsize ▸ hin)
          (Nat.pos_of_ne_zero hne) (hsize ▸ hlt) hline
      · rintro rfl
        exact ⟨hne, hlt, rfl⟩
    · rintro ⟨id, hid⟩
      obtain ⟨hne, hlt, hline⟩ := (hid id).mpr rfl
      exact ⟨id, (hids id).mpr ⟨hne, hlt⟩, hline⟩
  · rw [List.length_map, List.length_range']
    omega

/-- A diagnostic is found while reading, or is about a line that puts a node into the tree. -/
theorem mem_diagnostics_cases (h : (parseLines options checker lines).result = .ok script)
    (hread : Reading.read options checker lines = .ok reading) {diagnostic : Diagnostic}
    (hmem : diagnostic ∈ script.diagnostics) :
    diagnostic ∈ reading.diagnostics.toList ∨ diagnostic.isError = true ∧
      ∃ line id, Line.at? lines line.number = some line ∧
        Progress.Creates options checker lines line id ∧ diagnostic.line = line.number := by
  obtain ⟨found, hfound, hlater⟩ := exists_found_of_ok h hread
  rw [hfound] at hmem
  refine (List.mem_append.mp hmem).imp_right fun hnew => ?_
  obtain ⟨hseverity, _, line, id, hline, hcreates, hnumber⟩ := hlater diagnostic hnew
  exact ⟨decide_eq_true hseverity, line, id, hline.at?, hcreates, hnumber⟩

theorem at?_ne_none_of_mem_diagnostics (h : (parseLines options checker lines).result = .ok script)
    (hread : Reading.read options checker lines = .ok reading) :
    ∀ diagnostic ∈ script.diagnostics, Line.at? lines diagnostic.line ≠ none := by
  intro diagnostic hmem
  have hearly := Reading.exists_line_of_mem_diagnostics hread (Nat.le_refl _)
  rw [Reading.stage_length hread] at hearly
  rcases mem_diagnostics_cases h hread hmem with hold | ⟨_, line, _, hat, _, hnumber⟩
  · obtain ⟨_, line, hat, _⟩ := hearly diagnostic hold
    rw [hat]
    exact nofun
  · rw [hnumber, hat]
    exact nofun

private theorem accounts_of_ok (h : (parseLines options checker lines).result = .ok script)
    (hat : Line.at? lines line.number = some line) :
    script.Accounts options checker lines line := by
  obtain ⟨reading, hread, hsettled⟩ := settled_of_ok h
  have hpruned := hsettled.pruned
  have hstarts {id : NodeId} : (id ≠ Tree.root ∧ id < script.tree.size ∧
      script.tree.lineOf id = line.number) ↔ Progress.Creates options checker lines line id :=
    hpruned.lineOf_eq_iff hread hat
  have hsilence (hsilent : ∀ diagnostic ∈ script.diagnostics, diagnostic.line ≠ line.number) :
      ¬ script.Reports line.number := by
    rintro ⟨_, diagnostic, hmem, hline, _⟩
    exact hsilent diagnostic hmem hline
  have habsent (hnone : ∀ id, ¬ Progress.Creates options checker lines line id) :
      ¬ script.tree.StartsOn line.number := by
    rintro ⟨id, hid⟩
    exact hnone id (hstarts.mp ((hid id).mpr rfl))
  cases Progress.fate_of_at? hread hat with
  | dropped hsame herror =>
    have hnone (id : NodeId) : ¬ Progress.Creates options checker lines line id :=
      Progress.not_creates_of_length_eq hread (congrArg List.length hsame)
    refine .reports (habsent hnone) ?_ ⟨fun id hne hid hline => ?_, ?_⟩
    · rintro ⟨⟨id, happends, _⟩, _⟩
      exact Progress.not_isSource_of_same hread hsame (.inr happends)
    · exact hnone id (hstarts.mp ⟨hne, hid, hline⟩)
    · obtain ⟨diagnostic, hmem, hline, hseverity⟩ := herror
      refine ⟨diagnostic, ?_, hline, hseverity⟩
      rw [hsettled.diagnostics, List.append_assoc]
      exact List.mem_append_left _ hmem
  | starts entry hnext hsay =>
    have hcreates {id : NodeId} : Progress.Creates options checker lines line id ↔
        id = (Reading.stage options checker lines line.number).entries.length :=
      Progress.creates_iff_of_append hread hnext
    refine .starts ⟨_, fun other => hstarts.trans hcreates⟩ ?_ ?_
    · rintro ⟨⟨id, happends, _⟩, _⟩
      exact Progress.not_appends_of_append hread hnext happends
    · rintro ⟨hnone, _⟩
      obtain ⟨hne, hid, hline⟩ := hstarts.mpr (hcreates.mpr rfl)
      exact hnone _ hne hid hline
  | appends last entry text _ hentry hcommand hnext hmarker htext hquiet =>
    have happends := (Progress.appends_iff_of_extend hread hat hentry hcommand hnext hmarker
      htext).mpr rfl
    have hnone (id : NodeId) : ¬ Progress.Creates options checker lines line id := by
      refine Progress.not_creates_of_length_eq hread ?_
      rw [hnext, List.length_modify]
    have hsilent : ∀ diagnostic ∈ script.diagnostics, diagnostic.line ≠ line.number := by
      intro diagnostic hmem hline
      rcases mem_diagnostics_cases h hread hmem with hold | ⟨_, other, id, hother, hcreates, hnumber⟩
      · have hin : diagnostic ∈ reading.diagnostics.toList.filter (·.line = line.number) :=
          List.mem_filter.mpr ⟨hold, decide_eq_true hline⟩
        rw [hquiet] at hin
        contradiction
      · rw [← hnumber, hline, hat] at hother
        exact hnone id (Option.some.inj hother ▸ hcreates)
    refine .continues (habsent hnone) ⟨⟨last, happends, ?_⟩, hsilent⟩ (hsilence hsilent)
    rw [hpruned.lineOf]
    exact (Progress.lineAt_lt_of_appends hread happends).2.2

theorem Script.Settled.of_no_errors (h : script.Settled checker asked reading whole)
    (hfine : script.hasErrors = false) :
    reading.Flawless ∧ script.tree = whole ∧ script.diagnostics = reading.diagnostics.toList ∧
      ∀ link ∈ reading.links.toList, whole.find? link.key ≠ none := by
  have hquiet (diagnostic : Diagnostic) (hmem : diagnostic ∈ script.diagnostics) :
      diagnostic.isError = false := by
    refine Bool.eq_false_iff.mpr fun herror => ?_
    rw [hasErrors, List.any_eq_false] at hfine
    exact hfine diagnostic hmem herror
  have hlinks : reading.links.toList.filterMap (Link.complaint? whole) = [] := by
    refine List.eq_nil_iff_forall_not_mem.mpr fun diagnostic hmem => ?_
    have hnone := hquiet diagnostic (by
      rw [h.diagnostics]
      exact List.mem_append_left _ (List.mem_append_right _ hmem))
    obtain ⟨link, _, hcomplaint⟩ := List.mem_filterMap.mp hmem
    rw [(Link.complaint?_eq_some_iff.mp hcomplaint).2] at hnone
    contradiction
  have hrejections : Review.rejections checker whole reading.asked whole.walk.reverse = [] := by
    refine List.eq_nil_iff_forall_not_mem.mpr fun rejected hmem => ?_
    have hnone := hquiet (Review.complaint whole rejected) (by
      rw [h.diagnostics]
      exact List.mem_append_right _ (List.mem_map_of_mem hmem))
    contradiction
  have hdiagnostics := h.diagnostics
  have htree := h.tree
  rw [hrejections, List.map_nil, List.reverse_nil, Tree.detach_nil] at htree
  rw [hrejections, hlinks, List.map_nil, List.append_nil, List.append_nil] at hdiagnostics
  refine ⟨?_, htree, hdiagnostics, fun link hlink hnone => ?_⟩
  · rw [Reading.Flawless, ← hdiagnostics]
    exact hquiet
  · have hcomplaint := List.filterMap_eq_nil_iff.mp hlinks link hlink
    rw [Link.complaint?, hnone] at hcomplaint
    contradiction

theorem complete_of_ok (h : (parseLines options checker lines).result = .ok script)
    (hfine : script.hasErrors = false) : script.Complete options checker lines := by
  obtain ⟨reading, hread, hsettled⟩ := settled_of_ok h
  obtain ⟨hflawless, htree, hdiagnostics, hlinks⟩ := hsettled.of_no_errors hfine
  have hdrawn := hsettled.drawn
  rw [← htree] at hdrawn hlinks
  constructor
  · intro line hat
    have hwalk (id : NodeId) : id ∈ script.tree.walk ↔ 0 < id ∧ id < reading.entries.length := by
      rw [hdrawn.shaped.mem_walk_iff, hdrawn.size_eq]
    cases Progress.fate_of_at? hread hat with
    | dropped _ herror =>
      obtain ⟨diagnostic, hmem, _, hseverity⟩ := herror
      rw [hflawless diagnostic hmem] at hseverity
      contradiction
    | starts entry hnext =>
      have hcreates := (Progress.creates_iff_of_append hread hnext).mpr rfl
      obtain ⟨hpos, hid, hline⟩ := (Progress.lineAt_eq_iff hread hat).mpr hcreates
      exact ⟨_, (hwalk _).mpr ⟨hpos, hid⟩, .inl ((hdrawn.lineOf _).trans hline)⟩
    | appends last entry text _ hentry hcommand hnext hmarker htext =>
      have happends := (Progress.appends_iff_of_extend hread hat hentry hcommand hnext hmarker
        htext).mpr rfl
      obtain ⟨hpos, hid, _⟩ := Progress.lineAt_lt_of_appends hread happends
      exact ⟨last, (hwalk last).mpr ⟨hpos, hid⟩, .inr happends⟩
  · intro id span key target hnode
    have hlabel : script.tree.label? id = some (.leaf (.jump key none)) := by
      rw [Tree.label?_eq, hnode]
      rfl
    rw [hdrawn.label?] at hlabel
    have htarget := hsettled.target? id key hlabel
    have hjump := Sketch.mem_jumps_of_labelAt? hlabel
    rw [← Reading.links_eq hread] at hjump
    obtain ⟨link, hlink, hpair⟩ := List.mem_map.mp hjump
    obtain rfl : link.key = key := congrArg Prod.snd hpair
    rw [← htree, Tree.target?, hnode] at htarget
    intro hnone
    exact hlinks link hlink (htarget.symm.trans hnone)
  · intro id other key hid hother
    have hlookup := hflawless.lookup_names hread (Nat.le_refl _)
    rw [Reading.stage_length hread] at hlookup
    have hkey (id : NodeId)
        (hlabel : script.tree.label? id = some (.block (.scope (some key)) [])) :
        (Sketch.names reading.entries).lookup key = some id :=
      hlookup id key (Sketch.key?_of_labelAt? ((hdrawn.label? id).symm.trans hlabel))
    exact Option.some.inj ((hkey id hid).symm.trans (hkey other hother))
  · intro line hat
    rw [hdiagnostics]
    exact (hflawless.filter_eq hread hat).1

/-- No line is lost. -/
theorem account_of_ok (h : (parseLines options checker lines).result = .ok script) :
    script.Account options checker lines := by
  obtain ⟨reading, hread, hsettled⟩ := settled_of_ok h
  have hpruned := hsettled.pruned
  have hcount := Reading.lineCount_stage hread (Nat.le_refl _)
  rw [Reading.stage_length hread] at hcount
  refine ⟨hsettled.lineCount.trans hcount, fun number hblank => ⟨fun id hne hid hline => ?_, ?_⟩,
    fun line hat => accounts_of_ok h hat, ?_, fun id hne hid => ?_, complete_of_ok h⟩
  · rw [hpruned.size_eq] at hid
    obtain ⟨line, hat, _, hnumber⟩ :=
      Progress.exists_creates_lineAt hread (Nat.pos_of_ne_zero hne) hid
    have hsome := hat.at?
    rw [← hnumber, ← hpruned.lineOf, hline, hblank] at hsome
    contradiction
  · rintro diagnostic hmem rfl
    exact at?_ne_none_of_mem_diagnostics h hread diagnostic hmem hblank
  · exact hpruned.exists_numbers hread
  · rw [hpruned.size_eq, ← Reading.stage_length hread] at hid
    obtain ⟨entry, sources, hentry, hsay, hsources⟩ :=
      Progress.entered_of_pos hread (Nat.le_refl _) (Nat.pos_of_ne_zero hne) hid
    rw [Reading.stage_length hread] at hentry
    refine ⟨entry.mark, sources, ?_, hsay, hsources⟩
    rw [hpruned.mark?, hentry, Option.map_some]

end Parse

/-- A command of two lines, a blank line and a jump. The text behind the return marker is the
only one that is not told. -/
theorem account_of_ignored_text :
    let lines := ["one", "", "# two", "# three", "\t<- four", "-> end", "= end"]
    ∃ script, (parseLines {} .lenient lines).result = .ok script ∧
      script.Account {} .lenient lines ∧ script.Complete {} .lenient lines ∧
      script.diagnostics = [⟨4, 4, .ignoredText "four"⟩] := by
  intro lines
  have hparsed : (parseLines {} .lenient lines).result.toOption.map Script.diagnostics =
      some [⟨4, 4, .ignoredText "four"⟩] := by
    decide +kernel
  obtain ⟨script, hparse, hdiagnostics⟩ := exists_ok_of_map_toOption hparsed
  have haccount := account_of_ok hparse
  refine ⟨script, hparse, haccount, haccount.complete ?_, hdiagnostics⟩
  rw [Script.hasErrors, hdiagnostics]
  rfl

end Dialogue
