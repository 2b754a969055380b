import Dialogue.Proofs.Parse.Likeness
import Dialogue.Proofs.Parse.Policies
import Dialogue.Proofs.Parse.Spans

/-! Layout. Blank lines, blanks at the end of a line, and blanks that are no tabs in front of one
change where things stand and nothing else: two scripts whose written lines are alike have alike
parses. -/
namespace Dialogue

def Line.written (first : Nat) : List String → List Line
  | [] => []
  | text :: rest => (read? first text.toList).toList ++ written (first + 1) rest

/-- Where a line of one layout stands in another one: the k-th line that is not blank is the k-th
one there, and what is no such line, like the end of the script, goes to the end. -/
def renumbering (lines more : List String) (number : Nat) : Nat :=
  ((Line.written 0 more)[((Line.written 0 lines).map Line.number).idxOf number]?.map
    Line.number).getD more.length

variable {renumber : Nat → Nat}

namespace Line

variable {first : Nat} {lines : List String}

theorem number_of_mem_written {line : Line} (h : line ∈ written first lines) :
    first ≤ line.number ∧ line.number < first + lines.length := by
  induction lines generalizing first with
  | nil => contradiction
  | cons text rest ih =>
    rw [List.length_cons]
    rcases List.mem_append.mp h with hhead | hrest
    · have hnumber := number_of_read? (Option.mem_toList.mp hhead)
      omega
    · have hbounds := ih hrest
      omega

private theorem sorted_written (first : Nat) (lines : List String) :
    (written first lines).Pairwise (·.number < ·.number) := by
  induction lines generalizing first with
  | nil => exact .nil
  | cons text rest ih =>
    refine List.pairwise_append.mpr ⟨?_, ih (first + 1), fun line hline other hother => ?_⟩
    · cases read? first text.toList with
      | none => exact .nil
      | some line => exact List.pairwise_singleton ..
    · have hnumber := number_of_read? (Option.mem_toList.mp hline)
      have hbounds := number_of_mem_written hother
      omega

end Line

theorem relaid_written {lines more : List String}
    (h : List.Forall₂ Line.Alike (Line.written 0 lines) (Line.written 0 more)) :
    List.Forall₂ (Line.Relaid (renumbering lines more)) (Line.written 0 lines)
      (Line.written 0 more) := by
  obtain ⟨hlength, halike⟩ := List.forall₂_iff_get.mp h
  have hnodup : ((Line.written 0 lines).map Line.number).Nodup := by
    rw [List.nodup_iff_pairwise_ne, List.pairwise_map]
    exact (Line.sorted_written 0 lines).imp Nat.ne_of_lt
  refine List.forall₂_iff_get.mpr ⟨hlength, fun k hk hmore => ⟨halike k hk hmore, ?_⟩⟩
  have hindex := hnodup.idxOf_getElem k (by rwa [List.length_map])
  rw [List.getElem_map] at hindex
  rw [renumbering, List.get_eq_getElem, List.get_eq_getElem, hindex,
    List.getElem?_eq_getElem hmore]
  rfl

private theorem renumbering_length {lines more : List String}
    (h : List.Forall₂ Line.Alike (Line.written 0 lines) (Line.written 0 more)) :
    renumbering lines more lines.length = more.length := by
  have hnone : lines.length ∉ (Line.written 0 lines).map Line.number := by
    intro hmem
    obtain ⟨line, hline, hnumber⟩ := List.mem_map.mp hmem
    have hbounds := Line.number_of_mem_written hline
    omega
  rw [renumbering, List.idxOf_eq_length hnone, List.length_map, h.length_eq, List.getElem?_length]
  rfl

namespace Progress

variable {options : Options} {checker : Checker} {progress other : Progress} {line : Line}
  {lines more : List String}

theorem exists_foldl_feed_eq (options : Options) (checker : Checker)
    (h : progress.status = .running → Line.written progress.lineCount lines = []) :
    ∃ count, lines.foldl (feed options checker) progress =
      { progress with lineCount := count } := by
  induction lines generalizing progress with
  | nil => exact ⟨progress.lineCount, rfl⟩
  | cons text rest ih =>
    obtain ⟨draft, lineCount, links, journal, status⟩ := progress
    rw [List.foldl_cons]
    cases status with
    | failed error => exact @ih ⟨draft, lineCount, links, journal, .failed error⟩ nofun
    | stopped => exact @ih ⟨draft, lineCount + 1, links, journal, .stopped⟩ nofun
    | running =>
      obtain ⟨hblank, hrest⟩ := List.append_eq_nil_iff.mp (h rfl)
      rw [feed_of_running rfl, Option.toList_eq_nil_iff.mp hblank]
      exact @ih ⟨draft, lineCount + 1, links, journal, .running⟩ fun _ => hrest

private theorem exists_foldl_feed_place (options : Options) (checker : Checker)
    (hrunning : progress.status = .running) {rest : List Line}
    (h : Line.written progress.lineCount lines = line :: rest) :
    ∃ count notice after, Line.written count after = rest ∧
      lines.foldl (feed options checker) progress =
        after.foldl (feed options checker)
          (({ progress with lineCount := count }.note notice).place options checker line) := by
  induction lines generalizing progress with
  | nil => contradiction
  | cons text lines ih =>
    rw [List.foldl_cons, feed_of_running hrunning]
    rw [Line.written] at h
    cases hread : Line.read? progress.lineCount text.toList with
    | none =>
      rw [hread] at h
      have hcounted : ({ progress with lineCount := progress.lineCount + 1 } : Progress).status =
          .running := hrunning
      exact ih hcounted h
    | some other =>
      rw [hread] at h
      obtain ⟨rfl, hrest⟩ := List.cons.inj h
      exact ⟨_, _, lines, hrest, rfl⟩

private theorem lineCount_place (options : Options) (checker : Checker) (progress : Progress)
    (line : Line) : (progress.place options checker line).lineCount = progress.lineCount := by
  unfold place
  split
  · rfl
  · split
    · rw [add_eq]
      rfl
    · rfl

namespace Relaid

theorem foldl_feed_of_idle (h : progress.Relaid renumber other)
    (hfirst : progress.status = .running → Line.written progress.lineCount lines = [])
    (hsecond : other.status = .running → Line.written other.lineCount more = []) :
    (lines.foldl (feed options checker) progress).Relaid renumber
      (more.foldl (feed options checker) other) := by
  obtain ⟨count, hcount⟩ := exists_foldl_feed_eq options checker hfirst
  obtain ⟨second, hmore⟩ := exists_foldl_feed_eq options checker hsecond
  rw [hcount, hmore]
  exact ⟨h.draft, h.links, h.diagnostics, h.asked, h.status⟩

/-- Alike lines keep two parses together. -/
theorem foldl_feed (h : progress.Relaid renumber other)
    (hlines : List.Forall₂ (Line.Relaid renumber) (Line.written progress.lineCount lines)
      (Line.written other.lineCount more)) :
    (lines.foldl (feed options checker) progress).Relaid renumber
      (more.foldl (feed options checker) other) := by
  generalize hfirst : Line.written progress.lineCount lines = sources at hlines
  generalize hsecond : Line.written other.lineCount more = images at hlines
  induction hlines generalizing progress other lines more with
  | nil => exact h.foldl_feed_of_idle (fun _ => hfirst) fun _ => hsecond
  | cons hline _ ih =>
    by_cases hrunning : progress.status = .running
    · obtain ⟨count, notice, after, hafter, hfold⟩ :=
        exists_foldl_feed_place options checker hrunning hfirst
      obtain ⟨second, remark, later, hlater, hmore⟩ :=
        exists_foldl_feed_place options checker (h.running_iff.mpr hrunning) hsecond
      have hcounted : Relaid renumber ({ progress with lineCount := count }.note notice)
          ({ other with lineCount := second }.note remark) :=
        ⟨h.draft, h.links, h.diagnostics, h.asked, h.status⟩
      rw [hfold, hmore]
      refine ih (hcounted.place hline) ?_ ?_
      · rw [lineCount_place]
        exact hafter
      · rw [lineCount_place]
        exact hlater
    · -- Neither parse is running, so that no line is taken in any more.
      exact h.foldl_feed_of_idle (fun hyes => absurd hyes hrunning) fun hyes =>
        absurd (h.running_iff.mp hyes) hrunning

theorem read (options : Options) (checker : Checker)
    (h : List.Forall₂ (Line.Relaid renumber) (Line.written 0 lines) (Line.written 0 more)) :
    (Progress.read options checker lines).Relaid renumber
      (Progress.read options checker more) :=
  empty.foldl_feed h

end Relaid
end Progress

/-! What remains to be done once all lines are read. -/

namespace Link

variable {tree other : Tree} {link second : Link}

private theorem Relaid.resolve (h : link.Relaid renumber second)
    (htree : tree.Relaid renumber [] other) :
    (link.resolve tree).Relaid renumber [] (second.resolve other) := by
  rw [Link.resolve, Link.resolve, h.key, htree.find?]
  cases tree.find? link.key with
  | none => exact htree
  | some target =>
    dsimp only
    rw [h.node]
    refine htree.modify (fun node image hnode => ?_) (List.forall_mem_nil _)
    obtain ⟨span, label⟩ := node
    obtain ⟨place, same⟩ := image
    obtain rfl : same = label := hnode.content
    cases same with
    | block => exact hnode
    | leaf leaf =>
      cases leaf with
      | jump => exact ⟨rfl, hnode.line, nofun⟩
      | _ => exact hnode

private theorem Relaid.complaint? (h : link.Relaid renumber second)
    (htree : tree.Relaid renumber [] other) :
    Option.Rel (Diagnostic.Relaid renumber) (link.complaint? tree) (second.complaint? other) := by
  rw [Link.complaint?, Link.complaint?, h.key, htree.find?]
  cases tree.find? link.key with
  | some target => exact .none
  | none => exact .some ⟨h.line, rfl⟩

private theorem foldl_resolve_relaid {links more : List Link}
    (h : List.Forall₂ (Relaid renumber) links more) (htree : tree.Relaid renumber [] other) :
    (links.foldl resolve tree).Relaid renumber [] (more.foldl resolve other) := by
  induction h generalizing tree other with
  | nil => exact htree
  | cons hlink _ ih => exact ih (hlink.resolve htree)

end Link

theorem Progress.Relaid.linked {progress other : Progress} (h : progress.Relaid renumber other)
    (hcount : other.lineCount = renumber progress.lineCount) :
    progress.linked.Relaid renumber [] other.linked := by
  have hclosed : progress.closed.Relaid renumber [] other.closed := by
    rw [closed, closed, hcount]
    exact (h.draft.closeAll progress.lineCount).tree.modify
      (fun _ _ hnode => hnode.stoppedAt progress.lineCount) (List.forall_mem_nil _)
  rw [Progress.linked, Progress.linked, ← Array.foldl_toList, ← Array.foldl_toList]
  exact Link.foldl_resolve_relaid h.links hclosed

namespace Review

/-- A review goes by the texts of the commands alone. -/
theorem rejections_congr {tree other : Tree} (h : other.label? = tree.label?) (checker : Checker)
    (asked : Array Query) (ids : List NodeId) :
    rejections checker other asked ids = rejections checker tree asked ids := by
  induction ids generalizing asked with
  | nil => rfl
  | cons id rest ih =>
    have hcommand : other.command? id = tree.command? id := by
      rw [Tree.command?, Tree.command?, h]
    simp only [rejections, hcommand, ih]

theorem complaint_relaid {tree other : Tree} {checker : Checker} {asked : Array Query}
    {ids : List NodeId} (h : tree.Relaid renumber [] other)
    (hroot : tree.isScope Tree.root = true) {rejected : NodeId × Rejection}
    (hmem : rejected ∈ rejections checker tree asked ids) :
    (complaint tree rejected).Relaid renumber (complaint other rejected) := by
  obtain ⟨_, _, text, _, htext, _⟩ := mem_rejections_iff.mp hmem
  obtain ⟨span, children, hnode⟩ := Tree.exists_node_of_command? htext
  have hne : rejected.1 ≠ Tree.root := by
    intro heq
    rw [← heq, Tree.isScope_of_command? htext] at hroot
    contradiction
  exact ⟨h.lineOf (Array.getElem?_eq_some_iff.mp hnode).1 hne, rfl⟩

end Review

/-- One script in two layouts. -/
structure Script.Relaid (renumber : Nat → Nat) (script other : Script) : Prop where
  tree : script.tree.Relaid renumber [] other.tree
  leaf : ∀ id span leaf, other.tree.get? id = some ⟨span, .leaf leaf⟩ → span.stop = span.line + 1
  diagnostics : List.Forall₂ (Diagnostic.Relaid renumber) script.diagnostics other.diagnostics
  lineCount : other.lineCount = renumber script.lineCount

structure Outcome.Relaid (renumber : Nat → Nat) (outcome other : Outcome) : Prop where
  ok : ∀ script, outcome.result = .ok script →
    ∃ image, other.result = .ok image ∧ script.Relaid renumber image
  error : ∀ error, outcome.result = .error error →
    other.result = .error (error.renumbered renumber)
  asked : other.asked = outcome.asked

section Parse

variable {options : Options} {checker : Checker} {lines more : List String} {script image : Script}

theorem stop_of_leaf (h : (parseLines options checker lines).result = .ok script) {id : NodeId}
    {span : Span} {leaf : Leaf} (hnode : script.tree.get? id = some ⟨span, .leaf leaf⟩) :
    span.stop = span.line + 1 := by
  obtain ⟨reading, hread, hsettled⟩ := settled_of_ok h
  rw [hsettled.tree, Tree.get?_detach] at hnode
  obtain ⟨⟨found, label⟩, hfound, heq⟩ := Option.map_eq_some_iff.mp hnode
  obtain ⟨rfl, hlabel⟩ := Node.mk.inj heq
  cases label with
  | block => cases hlabel
  | leaf other => exact (hsettled.tiled hread).leaf id found other hfound

theorem relaid_of_ok
    (h : (Progress.read options checker lines).Relaid renumber (Progress.read options checker more))
    (hcount : renumber lines.length = more.length)
    (hscript : (parseLines options checker lines).result = .ok script)
    (himage : (parseLines options checker more).result = .ok image) :
    script.Relaid renumber image ∧
      (parseLines options checker more).asked = (parseLines options checker lines).asked := by
  obtain ⟨reading, hread, hsettled⟩ := settled_of_ok hscript
  obtain ⟨second, hsecond, hmore⟩ := settled_of_ok himage
  have hfirst := Progress.keeps_read options checker lines
  have hother := Progress.keeps_read options checker more
  rw [hread] at hfirst
  rw [hsecond] at hother
  have hcounts : second.lineCount = renumber reading.lineCount := by
    rw [Reading.lineCount_of_read hread, Reading.lineCount_of_read hsecond, hcount]
  have hasked := h.asked
  have hdiagnostics := h.diagnostics
  have hlinks := h.links
  have htree := h.linked (by rw [hfirst.lineCount, hother.lineCount, hcounts])
  rw [hfirst.asked, hother.asked] at hasked
  rw [hfirst.diagnostics, hother.diagnostics] at hdiagnostics
  rw [hfirst.links, hother.links] at hlinks
  have hroot : (Progress.read options checker lines).linked.isScope Tree.root = true :=
    (hsettled.drawn.isScope _).trans hsettled.regular.isScopeAt_root
  have hrejections : Review.rejections checker (Progress.read options checker more).linked
        second.asked (Progress.read options checker more).linked.walk.reverse =
      Review.rejections checker (Progress.read options checker lines).linked reading.asked
        (Progress.read options checker lines).linked.walk.reverse := by
    rw [Review.rejections_congr htree.label?, hasked, htree.walk]
  constructor
  · constructor
    · rw [hsettled.tree, hmore.tree, hrejections]
      exact htree.detach _
    · exact fun id span leaf => stop_of_leaf himage
    · rw [hsettled.diagnostics, hmore.diagnostics, hrejections]
      refine List.rel_append (List.rel_append hdiagnostics ?_) ?_
      · exact List.rel_filterMap (fun _ _ hlink => hlink.complaint? htree) hlinks
      · rw [List.forall₂_map_left_iff, List.forall₂_map_right_iff, List.forall₂_same]
        exact fun rejected hmem => Review.complaint_relaid htree hroot hmem
    · rw [hsettled.lineCount, hmore.lineCount, hcounts]
  · have hcommand : (Progress.read options checker more).linked.command? =
        (Progress.read options checker lines).linked.command? := by
      funext id
      rw [Tree.command?, Tree.command?, htree.label?]
    rw [hsettled.asked, hmore.asked, hasked, htree.walk, Review.queries, Review.queries, hcommand]

theorem parseLines_of_failed {error : ParseError}
    (h : (Progress.read options checker lines).status = .failed error) :
    parseLines options checker lines =
      ⟨.error error, (Progress.read options checker lines).journal.asked,
        (Progress.read options checker lines).journal.log⟩ := by
  rw [parseLines, Progress.finish, h]

end Parse

/-- Only lines and columns depend on the layout of a script. -/
theorem relaid_of_alike {lines more : List String} (options : Options) (checker : Checker)
    (h : List.Forall₂ Line.Alike (Line.written 0 lines) (Line.written 0 more)) :
    (parseLines options checker lines).Relaid (renumbering lines more)
      (parseLines options checker more) := by
  have hrelaid := Progress.Relaid.read options checker (relaid_written h)
  cases hresult : (parseLines options checker lines).result with
  | ok script =>
    obtain ⟨_, _, hmatches, _⟩ := exists_reading_of_ok hresult
    obtain ⟨image, himage⟩ : ∃ image, (parseLines options checker more).result = .ok image := by
      rw [parseLines, Progress.finish, hrelaid.running_iff.mpr hmatches.running]
      exact ⟨_, rfl⟩
    obtain ⟨hscript, hasked⟩ := relaid_of_ok hrelaid (renumbering_length h) hresult himage
    refine ⟨fun other hother => ?_, fun error herror => ?_, hasked⟩
    · obtain rfl := Except.ok.inj (hresult.symm.trans hother)
      exact ⟨image, himage, hscript⟩
    · rw [hresult] at herror
      contradiction
  | error error =>
    have hkeeps := Progress.keeps_read options checker lines
    rw [read_eq_error_of_result hresult] at hkeeps
    have hfailed : (Progress.read options checker lines).status = .failed error := hkeeps
    have hother := hrelaid.status
    rw [hfailed] at hother
    refine ⟨fun script hscript => ?_, fun found hfound => ?_, ?_⟩
    · rw [hresult] at hscript
      contradiction
    · obtain rfl := Except.error.inj (hresult.symm.trans hfound)
      rw [parseLines_of_failed hother]
    · rw [parseLines_of_failed hfailed, parseLines_of_failed hother]
      exact hrelaid.asked

/-- Blank lines before, in and behind a body, and blanks around markers and texts. -/
theorem relaid_of_spread_lines :
    let lines := ["-> gone", "# act", "\tdo it", "= end"]
    let more := ["", "  ->  gone", "#act ", "\t", " \t do it", "", "=end", ""]
    List.Forall₂ Line.Alike (Line.written 0 lines) (Line.written 0 more) ∧
      (parseLines {} .lenient lines).Relaid (renumbering lines more)
        (parseLines {} .lenient more) ∧
      (List.range 5).map (renumbering lines more) = [1, 2, 4, 6, 8] ∧
      ∃ script image, (parseLines {} .lenient lines).result = .ok script ∧
        (parseLines {} .lenient more).result = .ok image ∧
        script.tree.get? 2 = some ⟨⟨1, 2, 3⟩, .block (.command "act") [3]⟩ ∧
        image.tree.get? 2 = some ⟨⟨2, 1, 6⟩, .block (.command "act") [3]⟩ := by
  intro lines more
  have halike : List.Forall₂ Line.Alike (Line.written 0 lines) (Line.written 0 more) := by
    decide +kernel
  have hfirst : (parseLines {} .lenient lines).result.toOption.map (·.tree.get? 2) =
      some (some ⟨⟨1, 2, 3⟩, .block (.command "act") [3]⟩) := by decide +kernel
  have hsecond : (parseLines {} .lenient more).result.toOption.map (·.tree.get? 2) =
      some (some ⟨⟨2, 1, 6⟩, .block (.command "act") [3]⟩) := by decide +kernel
  obtain ⟨script, hscript, hnode⟩ := exists_ok_of_map_toOption hfirst
  obtain ⟨image, himage, hother⟩ := exists_ok_of_map_toOption hsecond
  exact ⟨halike, relaid_of_alike {} .lenient halike, by decide +kernel, script, image, hscript,
    himage, hnode, hother⟩

end Dialogue
