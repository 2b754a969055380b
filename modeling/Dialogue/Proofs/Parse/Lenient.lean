import Dialogue.Proofs.Parse.Scripts

/-! Scripts that nobody checks. Their trees are what their lines say, and what is wrong with
them can be told from the lines and from the names. -/
namespace Dialogue

/-- A tree that says what is sketched, and whose jumps lead where their names lead. -/
structure Tree.Spells (tree : Tree) (entries : List Entry) : Prop where
  drawn : tree.Drawn entries
  regular : Sketch.Regular entries
  names : tree.names = Sketch.names entries
  target? : ∀ id key, Sketch.labelAt? entries id = some (.leaf (.jump key none)) →
    tree.target? id = tree.find? key

namespace Review

private theorem check_lenient (tree : Tree) (review : Review) (id : NodeId) :
    (review.check .lenient tree id).rejected = review.rejected ∧
      (review.check .lenient tree id).journal.diagnostics = review.journal.diagnostics := by
  unfold check
  split
  · exact ⟨rfl, rfl⟩
  · exact ⟨rfl, rfl⟩

theorem foldl_check_lenient (tree : Tree) (review : Review) (ids : List NodeId) :
    (ids.foldl (check .lenient tree) review).rejected = review.rejected ∧
      (ids.foldl (check .lenient tree) review).journal.diagnostics =
        review.journal.diagnostics := by
  induction ids generalizing review with
  | nil => exact ⟨rfl, rfl⟩
  | cons id rest ih =>
    obtain ⟨hrejected, hdiagnostics⟩ := check_lenient tree review id
    obtain ⟨hmore, hlater⟩ := ih (review.check .lenient tree id)
    exact ⟨hmore.trans hrejected, hlater.trans hdiagnostics⟩

end Review

theorem Link.map_cause_complaint? (tree : Tree) (links : List Link) :
    (links.filterMap (complaint? tree)).map Diagnostic.cause =
      ((links.map Link.key).filter fun key => (tree.find? key).isNone).map .unknownScope := by
  induction links with
  | nil => rfl
  | cons link rest ih =>
    cases hfind : tree.find? link.key with
    | none =>
      have hcomplaint : complaint? tree link =
          some ⟨link.line, link.column, .unknownScope link.key⟩ := by
        rw [complaint?, hfind]
      rw [List.filterMap_cons_some hcomplaint, List.map_cons, List.map_cons, ih,
        List.filter_cons_of_pos (by rw [hfind]; rfl), List.map_cons]
    | some target =>
      have hcomplaint : complaint? tree link = none := by
        rw [complaint?, hfind]
      rw [List.filterMap_cons_none hcomplaint, ih, List.map_cons,
        List.filter_cons_of_neg (by rw [hfind]; exact nofun)]

section Parse

variable {options : Options} {checker : Checker} {lines : List String} {script : Script}
  {reading : Reading}

theorem exists_ok_of_read (h : Reading.read options checker lines = .ok reading) :
    ∃ script, (parseLines options checker lines).result = .ok script := by
  have hkeeps := Progress.keeps_read options checker lines
  rw [h] at hkeeps
  unfold parseLines Progress.finish
  rw [Progress.Matches.running hkeeps]
  exact ⟨_, rfl⟩

theorem exists_spells_of_ok (h : (parseLines options .lenient lines).result = .ok script) :
    ∃ reading, Reading.read options .lenient lines = .ok reading ∧
      script.tree.Spells reading.entries ∧
      script.diagnostics.map Diagnostic.cause =
        reading.diagnostics.toList.map Diagnostic.cause ++
          (((Sketch.jumps reading.entries).map Prod.snd).filter fun key =>
            (script.tree.find? key).isNone).map .unknownScope := by
  obtain ⟨reading, hread, hmatches, _, review, hreview, htree, hdiagnostics, _⟩ :=
    exists_reading_of_ok h
  have hlinks := Reading.links_eq hread
  obtain ⟨hdrawn, hnames, htargets⟩ := hmatches.linked hlinks
  obtain ⟨hrejected, hfound⟩ := Review.foldl_check_lenient
    (Progress.read options .lenient lines).linked
    { journal := (Progress.read options .lenient lines).linkJournal }
    (Progress.read options .lenient lines).linked.walk.reverse
  rw [← Review.ofTree, ← hreview] at hrejected hfound
  rw [hrejected, Tree.detach_nil] at htree
  refine ⟨reading, hread, ?_, ?_⟩
  · rw [htree]
    exact ⟨hdrawn, hmatches.draft.regular, hnames, htargets⟩
  · have hclosed : (Progress.read options .lenient lines).closed.find? = script.tree.find? := by
      funext key
      rw [Tree.find?, Tree.find?, htree, hnames]
      exact congrArg (List.lookup key) ((Draft.names_closeAll ..).trans hmatches.draft.names)
    have hkeys : reading.links.toList.map Link.key =
        (Sketch.jumps reading.entries).map Prod.snd := by
      rw [← hlinks, List.map_map]
      rfl
    rw [hdiagnostics, hfound, Progress.linkJournal, hmatches.diagnostics, hmatches.links,
      Array.toList_append, Array.toList_filterMap, List.map_append, Link.map_cause_complaint?,
      hclosed, hkeys]

end Parse
end Dialogue
