import Dialogue.Proofs.Parse.Descent
import Dialogue.Proofs.Parse.Ledger

/-! The transcript of a parse. The checker is asked about the conditions of the choices, line
by line, and then about the commands, against the order of the walk. What it rejects is cut off
with all that hangs on it, and is reported behind everything else. -/
namespace Dialogue

def Line.guard? (line : Line) : Option String :=
  if line.marker = .choice then
    (line.excerpt?.bind fun text => Guarded.split? text.text.toList).bind fun parts =>
      if parts.condition = "" then none else some parts.condition
  else none

namespace Line

variable (options : Options) (judge : Query → Option Rejection) (taken : String → Option Nat)
  (line : Line)

private theorem asked_scopeEffect : (line.scopeEffect options taken).asked = [] := by
  unfold scopeEffect
  split
  · rfl
  · cases line.excerpt? with
    | none => rfl
    | some name =>
      dsimp only
      cases taken name.text with
      | none => rfl
      | some => cases options.duplicates <;> rfl

private theorem asked_choiceEffect (hmarker : line.marker = .choice) :
    (line.choiceEffect judge).asked = line.guard?.toList.map .condition := by
  rw [guard?, if_pos hmarker, choiceEffect]
  cases line.excerpt? with
  | none => rfl
  | some text =>
    dsimp only [Option.bind_some]
    cases Guarded.split? text.text.toList with
    | none => rfl
    | some parts =>
      dsimp only [Option.bind_some, guardedEffect]
      by_cases hcondition : parts.condition = ""
      · rw [if_pos hcondition, if_pos hcondition]
        rfl
      · rw [if_neg hcondition, if_neg hcondition]
        cases judge (.condition parts.condition) <;> rfl

theorem asked_effect :
    (line.effect options judge taken).asked = line.guard?.toList.map .condition := by
  unfold effect
  cases hmarker : line.marker with
  | choice => exact line.asked_choiceEffect judge hmarker
  | scope =>
    rw [guard?, hmarker, if_neg nofun]
    exact line.asked_scopeEffect options taken
  | command =>
    rw [guard?, hmarker, if_neg nofun]
    cases line.excerpt? <;> rfl
  | jump =>
    rw [guard?, hmarker, if_neg nofun]
    cases line.excerpt? <;> rfl
  | text =>
    rw [guard?, hmarker, if_neg nofun]
    cases line.excerpt? <;> rfl
  | comment =>
    rw [guard?, hmarker, if_neg nofun]
    rfl
  | back =>
    rw [guard?, hmarker, if_neg nofun]
    rfl

end Line

def Progress.guardAt? (options : Options) (checker : Checker) (lines : List String)
    (number : Nat) : Option String :=
  ((Line.at? lines number).filter fun line =>
    line.depth ≤ room options checker lines number).bind Line.guard?

def Progress.guards (options : Options) (checker : Checker) (lines : List String) (i : Nat) :
    List String := (List.range i).filterMap (guardAt? options checker lines)

private theorem Progress.guards_succ (options : Options) (checker : Checker) (lines : List String)
    (i : Nat) : guards options checker lines (i + 1) =
      guards options checker lines i ++ (guardAt? options checker lines i).toList := by
  rw [guards, List.range_succ, List.filterMap_append, ← guards]
  cases hguard : guardAt? options checker lines i <;> simp [hguard]

theorem Reading.asked_stage {options : Options} {checker : Checker} {lines : List String}
    {reading : Reading} (h : read options checker lines = .ok reading) {i : Nat}
    (hi : i ≤ lines.length) :
    (stage options checker lines i).asked.toList =
      (Progress.guards options checker lines i).map .condition := by
  induction i with
  | zero => rfl
  | succ i ih =>
    have hroom := Progress.room_eq h (Nat.le_of_succ_le hi)
    rw [Progress.guards_succ, List.map_append, ← ih (Nat.le_of_succ_le hi), Progress.guardAt?,
      hroom]
    rcases stage_cases h hi with ⟨hat, hnext⟩ | ⟨line, hat, ⟨hdeep, hnext⟩ | ⟨hfits, hnext⟩⟩
    · rw [hnext, hat]
      exact (List.append_nil _).symm
    · rw [hnext, hat, Option.filter_some_neg (by simpa using hdeep)]
      exact (List.append_nil _).symm
    · rw [hnext, hat, Option.filter_some_pos (by simpa using hfits), absorb,
        Array.toList_appendList, effect, line.asked_effect]
      rfl

theorem Line.Say.exists_command {lines : List Line} {number column : Nat} {text : String}
    (h : Say lines ⟨number, column, .block (.command text) []⟩) :
    ∃ first rest excerpt, lines = first :: rest ∧ first.number = number ∧
      first.marker = .command ∧ first.excerpt? = some excerpt ∧ excerpt.column = column := by
  generalize hmark : (⟨number, column, .block (.command text) []⟩ : Mark) = mark at h
  induction h generalizing text with
  | command hmarker htext =>
    obtain ⟨rfl, rfl, _⟩ := Mark.mk.inj hmark
    exact ⟨_, [], _, rfl, rfl, hmarker, htext, rfl⟩
  | more _ _ _ ih =>
    obtain ⟨rfl, rfl, _⟩ := Mark.mk.inj hmark
    obtain ⟨first, rest, excerpt, rfl, hfirst⟩ := ih rfl
    exact ⟨first, rest ++ [_], excerpt, rfl, hfirst⟩
  | _ => exact absurd (congrArg Mark.label hmark) nofun

def Progress.Unknown (options : Options) (checker : Checker) (lines : List String) (whole : Tree)
    (diagnostic : Diagnostic) : Prop :=
  ∃ line id span key, Line.at? lines line.number = some line ∧
    Creates options checker lines line id ∧
    whole.get? id = some ⟨span, .leaf (.jump key none)⟩ ∧
    diagnostic = ⟨line.number, line.restColumn, .unknownScope key⟩

/-- The order of the diagnostics: first what is found while reading, line by line, then the
jumps that lead nowhere, then the commands that are rejected. -/
structure Script.Reported (script : Script) (options : Options) (checker : Checker)
    (lines : List String) (whole : Tree) (cut : List (NodeId × Rejection))
    (scanned unknown : List Diagnostic) : Prop where
  diagnostics : script.diagnostics = scanned ++ unknown ++ cut.map (Review.complaint whole)
  scanned_sorted : scanned.Pairwise (·.line ≤ ·.line)
  scanned : ∀ diagnostic ∈ scanned,
    ∃ line, Line.at? lines diagnostic.line = some line ∧ line.Found diagnostic
  unknown_sorted : unknown.Pairwise (·.line < ·.line)
  mem_unknown : ∀ diagnostic,
    diagnostic ∈ unknown ↔ Progress.Unknown options checker lines whole diagnostic
  complaint : ∀ id rejection, (id, rejection) ∈ cut → ∃ line text,
    Line.at? lines line.number = some line ∧ Progress.Creates options checker lines line id ∧
    line.marker = .command ∧ line.excerpt? = some text ∧
    Review.complaint whole (id, rejection) = ⟨line.number, text.column, .rejectedCommand rejection⟩

/-- What the checker was asked in the course of a parse, and what became of its answers. -/
structure Script.Transcript (script : Script) (options : Options) (checker : Checker)
    (lines : List String) (asked : Array Query) (whole : Tree) (cut : List (NodeId × Rejection)) :
    Prop where
  queries : asked.toList =
    (Progress.guards options checker lines lines.length).map .condition ++
      whole.walk.reverse.filterMap fun id => (whole.command? id).map .command
  walk : whole.walk = List.range' 1 (whole.size - 1)
  descent : ∃ journal, Descent.run checker whole.size Tree.root
      (whole, (Progress.read options checker lines).linkJournal) = (script.tree, journal) ∧
    journal.asked = asked ∧ journal.diagnostics.toList = script.diagnostics
  cut_sorted : (cut.map Prod.fst).Pairwise (· > ·)
  mem_cut : ∀ id rejection, (id, rejection) ∈ cut ↔ Review.Rejects checker whole
    ((Progress.guards options checker lines lines.length).map .condition).toArray
    whole.walk.reverse id rejection
  reachable : ∀ id < whole.size, script.tree.Within Tree.root id ↔
    ∀ top ∈ cut.map Prod.fst, ¬ whole.Within top id
  get? : ∀ id, script.tree.get? id =
    (whole.get? id).map (Node.mapChildren (·.filter (· ∉ cut.map Prod.fst)))
  names : script.tree.names = whole.names
  reported : ∃ scanned unknown,
    script.Reported options checker lines whole cut scanned unknown

/-- A node hangs on the root after a cut unless it is within a node that was cut off. -/
theorem Tree.Shaped.within_root_detach_iff {whole : Tree} {level : Nat → Nat} {ids : List NodeId}
    (h : whole.Shaped level) (hroot : root ∉ ids) {id : Nat} (hid : id < whole.size) :
    (whole.detach ids).Within root id ↔ ∀ top ∈ ids, ¬ whole.Within top id := by
  refine ⟨fun hwithin top htop => hwithin.not_within_of_detach h hroot htop, fun hnone => ?_⟩
  induction id using Nat.strongRecOn with
  | _ id ih =>
    rcases Nat.eq_zero_or_pos id with rfl | hpos
    · exact .self
    · obtain ⟨parent, hchild⟩ := h.exists_parent hpos hid
      have hlt := ((h.mem_children_iff parent id).mp hchild).2.lt
      refine .child (ih parent hlt (Nat.lt_trans hlt hid) fun top htop hwithin => ?_) ?_
      · exact hnone top htop (.child hwithin hchild)
      · rw [children_detach, List.mem_filter, decide_eq_true_eq]
        exact ⟨hchild, fun hcut => hnone id hcut .self⟩

namespace Sketch

theorem sorted_jumps (entries : List Entry) : (jumps entries).Pairwise (·.1 < ·.1) := by
  rw [← entries.reverse_reverse]
  induction entries.reverse with
  | nil => exact .nil
  | cons entry before ih =>
    rw [List.reverse_cons, jumps_append]
    refine List.pairwise_append.mpr ⟨ih, ?_, fun early hearly late hlate => ?_⟩
    · cases entry.jump? <;> simp
    · obtain ⟨found, hfound, _⟩ := Option.bind_eq_some_iff.mp (mem_jumps_iff.mp hearly)
      obtain ⟨key, _, rfl⟩ := Option.map_eq_some_iff.mp (Option.mem_toList.mp hlate)
      exact (List.getElem?_eq_some_iff.mp hfound).1

end Sketch

section Parse

variable {options : Options} {checker : Checker} {lines : List String} {script : Script}
  {reading : Reading} {asked : Array Query} {whole : Tree}

theorem Script.Settled.exists_jump_of_mem_jumps (h : script.Settled checker asked reading whole)
    {id : Nat} {key : String} (hjump : (id, key) ∈ Sketch.jumps reading.entries) :
    ∃ span, whole.get? id = some ⟨span, .leaf (.jump key (whole.find? key))⟩ := by
  obtain ⟨⟨level, line, column, label⟩, hentry, hkey⟩ :=
    Option.bind_eq_some_iff.mp (Sketch.mem_jumps_iff.mp hjump)
  have hmark := h.drawn.mark? id
  rw [hentry] at hmark
  obtain ⟨⟨span, content⟩, hnode, hsame⟩ := Option.map_eq_some_iff.mp hmark
  obtain ⟨_, _, rfl⟩ := Mark.mk.inj hsame
  cases content with
  | block block => cases block <;> contradiction
  | leaf leaf =>
    cases leaf with
    | jump found target =>
      obtain rfl : found = key := Option.some.inj hkey
      have hlabel : Sketch.labelAt? reading.entries id = some (.leaf (.jump found none)) := by
        rw [← h.drawn.label?, Tree.label?_eq, hnode]
        rfl
      have htarget := h.target? id found hlabel
      rw [Tree.target?, hnode] at htarget
      obtain rfl : target = whole.find? found := htarget
      exact ⟨span, hnode⟩
    | _ => contradiction

theorem Reading.sorted_unknown (whole : Tree)
    (hread : Reading.read options checker lines = .ok reading) :
    (reading.links.toList.filterMap (Link.complaint? whole)).Pairwise (·.line < ·.line) := by
  have hlinks := Progress.exists_admits_of_link hread (Nat.le_refl _)
  rw [Reading.stage_length hread] at hlinks
  have hnodes := Sketch.sorted_jumps reading.entries
  rw [← Reading.links_eq hread, List.pairwise_map] at hnodes
  refine List.pairwise_filterMap.mpr (hnodes.imp_of_mem fun {link next} hlink hnext hlt => ?_)
  intro first hfirst second hsecond
  obtain ⟨line, hline, hcreates, hnumber, _⟩ := hlinks link hlink
  obtain ⟨later, hlater, hthen, hafter, _⟩ := hlinks next hnext
  obtain ⟨hpos, _, hstart⟩ := (Progress.lineAt_eq_iff hread hline.at?).mpr hcreates
  obtain ⟨_, hin, hsecondLine⟩ := (Progress.lineAt_eq_iff hread hlater.at?).mpr hthen
  have hlines := Progress.lineAt_lt_lineAt hread hpos hlt hin
  rw [(Link.complaint?_eq_some_iff.mp hfirst).2, (Link.complaint?_eq_some_iff.mp hsecond).2]
  show link.line < next.line
  rw [hnumber, hafter, ← hstart, ← hsecondLine]
  exact hlines

theorem Script.Settled.mem_unknown_iff (h : script.Settled checker asked reading whole)
    (hread : Reading.read options checker lines = .ok reading) (diagnostic : Diagnostic) :
    diagnostic ∈ reading.links.toList.filterMap (Link.complaint? whole) ↔
      Progress.Unknown options checker lines whole diagnostic := by
  have hlinks := Progress.exists_admits_of_link hread (Nat.le_refl _)
  rw [Reading.stage_length hread] at hlinks
  rw [List.mem_filterMap]
  constructor
  · rintro ⟨link, hlink, hcomplaint⟩
    obtain ⟨line, hline, hcreates, hnumber, hcolumn⟩ := hlinks link hlink
    obtain ⟨hnone, rfl⟩ := Link.complaint?_eq_some_iff.mp hcomplaint
    have hjump : (link.node, link.key) ∈ Sketch.jumps reading.entries := by
      rw [← Reading.links_eq hread]
      exact List.mem_map_of_mem hlink
    obtain ⟨span, hnode⟩ := h.exists_jump_of_mem_jumps hjump
    rw [hnone] at hnode
    exact ⟨line, link.node, span, link.key, hline.at?, hcreates, hnode, by rw [hnumber, hcolumn]⟩
  · rintro ⟨line, id, span, key, hat, hcreates, hnode, rfl⟩
    have hlabel : Sketch.labelAt? reading.entries id = some (.leaf (.jump key none)) := by
      rw [← h.drawn.label?, Tree.label?_eq, hnode]
      rfl
    have hjump := Sketch.mem_jumps_of_labelAt? hlabel
    rw [← Reading.links_eq hread] at hjump
    obtain ⟨link, hlink, hpair⟩ := List.mem_map.mp hjump
    obtain ⟨rfl, rfl⟩ := Prod.mk.inj hpair
    obtain ⟨other, hother, hthen, hnumber, hcolumn⟩ := hlinks link hlink
    have hsame : other = line := by
      have hfirst := (Progress.lineAt_of_creates hread hat hcreates).2
      rw [(Progress.lineAt_of_creates hread hother.at? hthen).2] at hfirst
      have hotherAt := hother.at?
      rw [hfirst, hat] at hotherAt
      exact (Option.some.inj hotherAt).symm
    have htarget := h.target? link.node link.key hlabel
    rw [Tree.target?, hnode] at htarget
    refine ⟨link, hlink, Link.complaint?_eq_some_iff.mpr ⟨htarget.symm, ?_⟩⟩
    rw [hnumber, hcolumn, hsame]

theorem Script.Settled.exists_complaint (h : script.Settled checker asked reading whole)
    (hread : Reading.read options checker lines = .ok reading) {id : Nat} {rejection : Rejection}
    (hrejects : Review.Rejects checker whole reading.asked whole.walk.reverse id rejection) :
    ∃ line text, Line.at? lines line.number = some line ∧
      Progress.Creates options checker lines line id ∧ line.marker = .command ∧
      line.excerpt? = some text ∧ Review.complaint whole (id, rejection) =
        ⟨line.number, text.column, .rejectedCommand rejection⟩ := by
  obtain ⟨before, after, text, hsplit, htext, _⟩ := hrejects
  have hwalk : id ∈ whole.walk := by
    rw [← List.mem_reverse, hsplit]
    exact List.mem_append_right before List.mem_cons_self
  obtain ⟨hpos, hid⟩ := h.drawn.shaped.mem_walk_iff.mp hwalk
  rw [h.drawn.size_eq] at hid
  obtain ⟨entry, sources, hentry, hsay, hsources⟩ := Progress.exists_sources hread hpos hid
  have hmark := h.drawn.mark? id
  rw [hentry, Option.map_some] at hmark
  obtain ⟨span, children, hnode⟩ := Tree.exists_node_of_command? htext
  rw [Tree.mark?, hnode] at hmark
  rw [← Option.some.inj hmark] at hsay
  obtain ⟨first, rest, excerpt, rfl, hnumber, hmarker, hexcerpt, hcolumn⟩ := hsay.exists_command
  obtain ⟨_, hat, _⟩ := (hsources.mem_iff first).mp List.mem_cons_self
  have hline : whole.lineOf id = first.number := by
    rw [Tree.lineOf, hnode, hnumber]
  have hstart : whole.columnOf id = excerpt.column := by
    rw [Tree.columnOf, Tree.mark?, hnode, hcolumn]
    rfl
  refine ⟨first, excerpt, hat, ?_, hmarker, hexcerpt, ?_⟩
  · refine (Progress.lineAt_eq_iff hread hat).mp ⟨hpos, hid, ?_⟩
    rw [← h.drawn.lineOf, hline]
  · rw [Review.complaint, hline, hstart]

private theorem Script.Settled.reported (h : script.Settled checker asked reading whole)
    (hread : Reading.read options checker lines = .ok reading) :
    script.Reported options checker lines whole
      (Review.rejections checker whole reading.asked whole.walk.reverse)
      reading.diagnostics.toList (reading.links.toList.filterMap (Link.complaint? whole)) := by
  have hlast := Reading.stage_length hread
  have hsorted := Reading.sorted_diagnostics hread (Nat.le_refl _)
  have hfound := Reading.exists_line_of_mem_diagnostics hread (Nat.le_refl _)
  rw [hlast] at hsorted hfound
  constructor
  · exact h.diagnostics
  · exact hsorted
  · intro diagnostic hmem
    exact (hfound diagnostic hmem).2
  · exact Reading.sorted_unknown whole hread
  · exact h.mem_unknown_iff hread
  · intro id rejection hmem
    exact h.exists_complaint hread (Review.mem_rejections_iff.mp hmem)

end Parse

/-- The transcript of a parse. -/
theorem transcript_of_ok {options : Options} {checker : Checker} {lines : List String}
    {script : Script} (h : (parseLines options checker lines).result = .ok script) :
    ∃ cut, script.Transcript options checker lines (parseLines options checker lines).asked
      (Progress.read options checker lines).linked cut := by
  obtain ⟨reading, hread, hsettled⟩ := settled_of_ok h
  obtain ⟨other, hother, _, _, review, hreview, htree, hdiagnostics, hasked⟩ :=
    exists_reading_of_ok h
  have hshaped := hsettled.drawn.shaped
  have hguards := Reading.asked_stage hread (Nat.le_refl _)
  rw [Reading.stage_length hread] at hguards
  generalize hwhole : (Progress.read options checker lines).linked = whole at *
  refine ⟨Review.rejections checker whole reading.asked whole.walk.reverse, ?_⟩
  constructor
  · rw [hsettled.asked, Array.toList_appendList, hguards]
    rfl
  · exact hshaped.walk_eq
  · refine ⟨review.journal, ?_, hasked.symm, hdiagnostics.symm⟩
    rw [Review.ofTree_eq_run hshaped, ← hreview, htree]
  · have hwalk : whole.walk.reverse.Pairwise (· > ·) := by
      rw [hshaped.walk_eq]
      exact List.pairwise_reverse.mpr List.pairwise_lt_range'
    exact hwalk.sublist (Review.rejections_sublist ..)
  · intro id rejection
    rw [← hguards]
    exact Review.mem_rejections_iff
  · intro id hid
    have hroot : whole.isScope Tree.root = true :=
      (hsettled.drawn.isScope _).trans hsettled.regular.isScopeAt_root
    rw [hsettled.tree, hshaped.within_root_detach_iff ?_ hid]
    · simp only [List.mem_reverse]
    · rw [List.mem_reverse]
      exact Review.not_mem_rejections_of_isScope hroot
  · intro id
    rw [hsettled.tree, Tree.get?_detach]
    simp only [List.mem_reverse]
  · rw [hsettled.tree, Tree.names_detach]
  · exact ⟨_, _, hsettled.reported hread⟩

/-- A checker that turns down the third query, whatever it is. -/
theorem transcript_of_third_rejected :
    let checker : Checker := ⟨fun earlier _ => if earlier.size = 2 then some ⟨"no"⟩ else none⟩
    let lines := ["* one #two#", "# three", "\t# four", "-> five", "# six"]
    let whole := (Progress.read {} checker lines).linked
    let asked := (parseLines {} checker lines).asked
    ∃ script, (parseLines {} checker lines).result = .ok script ∧
      (∃ cut, script.Transcript {} checker lines asked whole cut) ∧
      asked = #[.condition "two", .command "six", .command "four", .command "three"] ∧
      script.diagnostics =
        [⟨3, 2, .unknownScope "five"⟩, ⟨2, 3, .rejectedCommand ⟨"no"⟩⟩] := by
  intro checker lines whole asked
  have hparsed : (parseLines {} checker lines).result.toOption.map Script.diagnostics =
      some [⟨3, 2, .unknownScope "five"⟩, ⟨2, 3, .rejectedCommand ⟨"no"⟩⟩] := by
    decide +kernel
  obtain ⟨script, hparse, hdiagnostics⟩ := exists_ok_of_map_toOption hparsed
  exact ⟨script, hparse, transcript_of_ok hparse, by decide +kernel, hdiagnostics⟩

end Dialogue
