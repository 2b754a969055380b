import Dialogue.Proofs.Parse.Linking
import Dialogue.Proofs.Playback.Simulation

/-! What the tree of a script has in common with the reading of its lines: its nodes, its
names and the targets of its jumps. Commands that were rejected, and they alone, do not hang
where the sketch says. -/
namespace Dialogue

/-- A tree as it is sketched, from which some nodes are cut off. -/
structure Tree.Pruned (tree : Tree) (entries : List Entry) (rejected : List NodeId) : Prop where
  regular : Sketch.Regular entries
  names : tree.names = Sketch.names entries
  mark? : ∀ id : Nat, tree.mark? id = entries[id]?.map Entry.mark
  sorted : ∀ id : Nat, (tree.children id).Pairwise (· < ·)
  mem_children_iff : ∀ parent child : Nat, child ∈ tree.children parent ↔
    child < entries.length ∧ IsParent (Sketch.levelAt entries) parent child ∧ child ∉ rejected
  target? : ∀ id key, Sketch.labelAt? entries id = some (.leaf (.jump key none)) →
    tree.target? id = tree.find? key

theorem Entry.isScope_of_key? {entry : Entry} {key : String} (h : entry.key? = some key) :
    entry.mark.label.isScope = true := by
  cases hscope : entry.mark.label.isScope with
  | true => rfl
  | false => rw [Entry.key?_eq_none hscope] at h; contradiction

namespace Tree.Pruned

variable {tree : Tree} {entries : List Entry} {rejected : List NodeId} {id : NodeId}

theorem label? (h : tree.Pruned entries rejected) (id : Nat) :
    tree.label? id = Sketch.labelAt? entries id := by
  rw [Tree.label?, h.mark?, Option.map_map]
  rfl

theorem isScope (h : tree.Pruned entries rejected) (id : Nat) :
    tree.isScope id = Sketch.isScopeAt entries id := by
  rw [isScope_eq, h.label?]
  rfl

theorem lineOf (h : tree.Pruned entries rejected) (id : Nat) :
    tree.lineOf id = Sketch.lineAt entries id := by
  rw [lineOf_eq, h.mark?, Sketch.lineAt, Option.map_map]
  rfl

theorem size_eq (h : tree.Pruned entries rejected) : tree.size = entries.length := by
  have hiff (id : Nat) : tree.size ≤ id ↔ entries.length ≤ id := by
    rw [← mark?_eq_none_iff, h.mark?, Option.map_eq_none_iff, List.getElem?_eq_none_iff]
  exact Nat.le_antisymm ((hiff _).mpr (Nat.le_refl _)) ((hiff _).mp (Nat.le_refl _))

private theorem find?_eq (h : tree.Pruned entries rejected) (key : String) :
    tree.find? key = entries.findIdx? (·.key? == some key) := by
  rw [find?, h.names, Sketch.lookup_names]

theorem exists_entry_of_find? (h : tree.Pruned entries rejected) {key : String}
    (hfind : tree.find? key = some id) :
    ∃ entry, entries[id]? = some entry ∧ entry.key? = some key := by
  rw [h.find?_eq] at hfind
  obtain ⟨hlt, hkey, _⟩ := List.findIdx?_eq_some_iff_getElem.mp hfind
  exact ⟨entries[id], List.getElem?_eq_getElem hlt, beq_iff_eq.mp hkey⟩

theorem isScope_of_find? (h : tree.Pruned entries rejected) {key : String}
    (hfind : tree.find? key = some id) : tree.isScope id = true := by
  obtain ⟨entry, hentry, hkey⟩ := h.exists_entry_of_find? hfind
  rw [h.isScope, Sketch.isScopeAt, Sketch.labelAt?, hentry]
  exact Entry.isScope_of_key? hkey

theorem label?_of_find? (h : tree.Pruned entries rejected) {key : String}
    (hfind : tree.find? key = some id) :
    id ≠ root ∧ tree.label? id = some (.block (.scope (some key)) []) := by
  obtain ⟨entry, hentry, hkey⟩ := h.exists_entry_of_find? hfind
  have hne : id ≠ root := by
    rintro rfl
    obtain rfl := Option.some.inj (h.regular.root.symm.trans hentry)
    contradiction
  have hscope : Sketch.isScopeAt entries id = true :=
    (h.isScope id).symm.trans (h.isScope_of_find? hfind)
  obtain ⟨found, hlabel⟩ := h.regular.section_key id (Nat.pos_of_ne_zero hne) hscope
  have hfound := Sketch.key?_of_labelAt? hlabel
  rw [hentry, Option.bind_some, hkey] at hfound
  exact ⟨hne, by rw [h.label?, hlabel, hfound]⟩

theorem find?_eq_of_jump (h : tree.Pruned entries rejected) {span : Span} {key : String}
    {target : Option NodeId} (hnode : tree.get? id = some ⟨span, .leaf (.jump key target)⟩) :
    tree.find? key = target := by
  have hlabel : tree.label? id = some (.leaf (.jump key none)) := by
    rw [label?_eq, hnode]
    rfl
  rw [← h.target? id key ((h.label? id).symm.trans hlabel), Tree.target?, hnode]
  rfl

private theorem linked (h : tree.Pruned entries rejected) : tree.Linked := by
  constructor
  · exact (h.isScope root).trans h.regular.isScopeAt_root
  · intro key id hfind
    exact h.isScope_of_find? hfind
  · intro id span key target hnode
    exact h.isScope_of_find? (h.find?_eq_of_jump hnode)

end Tree.Pruned

namespace Tree.Drawn

variable {tree : Tree} {entries : List Entry}

theorem pruned_detach (h : tree.Drawn entries) (hregular : Sketch.Regular entries)
    (hnames : tree.names = Sketch.names entries)
    (htargets : ∀ id key, Sketch.labelAt? entries id = some (.leaf (.jump key none)) →
      tree.target? id = tree.find? key) (rejected : List NodeId) :
    (tree.detach rejected).Pruned entries rejected := by
  constructor
  · exact hregular
  · rw [names_detach, hnames]
  · intro id
    rw [mark?_detach]
    exact h.mark? id
  · intro id
    rw [children_detach]
    exact (h.shaped.sorted id).filter _
  · intro parent child
    rw [children_detach, List.mem_filter, h.shaped.mem_children_iff, h.size_eq, decide_eq_true_eq,
      and_assoc]
  · intro id key hlabel
    rw [target?_detach, find?, names_detach]
    exact htargets id key hlabel

end Tree.Drawn

theorem exists_ok_of_map_toOption {ε α β : Type} {result : Except ε α} {f : α → β} {value : β}
    (h : result.toOption.map f = some value) : ∃ found, result = .ok found ∧ f found = value := by
  cases result with
  | error => contradiction
  | ok found => exact ⟨found, rfl, Option.some.inj h⟩

section Parse

variable {options : Options} {checker : Checker} {lines : List String} {script : Script}

/-- How a script comes about. -/
theorem exists_reading_of_ok (h : (parseLines options checker lines).result = .ok script) :
    ∃ reading, Reading.read options checker lines = .ok reading ∧
      (Progress.read options checker lines).Matches reading ∧
      script.lineCount = reading.lineCount ∧
      ∃ review, review = Review.ofTree checker (Progress.read options checker lines).linked
          (Progress.read options checker lines).linkJournal ∧
        script.tree = (Progress.read options checker lines).linked.detach review.rejected ∧
        script.diagnostics = review.journal.diagnostics.toList ∧
        (parseLines options checker lines).asked = review.journal.asked := by
  have hkeeps := Progress.keeps_read options checker lines
  unfold parseLines Progress.finish at h ⊢
  cases hreading : Reading.read options checker lines with
  | error error =>
    rw [hreading] at hkeeps
    rw [show (Progress.read options checker lines).status = .failed error from hkeeps] at h
    contradiction
  | ok reading =>
    rw [hreading] at hkeeps
    rw [Progress.Matches.running hkeeps] at h ⊢
    obtain rfl := Except.ok.inj h
    exact ⟨reading, rfl, hkeeps, hkeeps.lineCount, _, rfl, rfl, rfl, rfl⟩

theorem exists_pruned_of_ok (h : (parseLines options checker lines).result = .ok script) :
    ∃ reading rejected, Reading.read options checker lines = .ok reading ∧
      script.tree.Pruned reading.entries rejected := by
  obtain ⟨reading, hread, hmatches, _, review, _, htree, _, _⟩ := exists_reading_of_ok h
  obtain ⟨hdrawn, hnames, htargets⟩ := hmatches.linked (Reading.links_eq hread)
  refine ⟨reading, review.rejected, hread, ?_⟩
  rw [htree]
  exact hdrawn.pruned_detach hmatches.draft.regular hnames htargets _

theorem linked_of_ok (h : (parseLines options checker lines).result = .ok script) :
    script.tree.Linked := by
  obtain ⟨_, _, _, hpruned⟩ := exists_pruned_of_ok h
  exact hpruned.linked

end Parse
end Dialogue
