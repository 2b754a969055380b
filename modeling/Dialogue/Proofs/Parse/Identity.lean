import Dialogue.Proofs.Grammar.Agreement
import Dialogue.Proofs.Parse.Trial
import Dialogue.Proofs.Tree.Nested

/-! When two parsed trees are the same. As long as no command is rejected, the numbers of the
nodes and the table of names are told by what hangs on the root. -/
namespace Dialogue

private theorem Node.mark_bare (node : Node) : node.bare.mark = node.mark := by
  obtain ⟨span, content⟩ := node
  cases content with
  | block => rfl
  | leaf l => cases l <;> rfl

namespace Tree

variable {first second : Tree} {entries others : List Entry}

private theorem mark?_eq_head? (tree : Tree) (id : NodeId) :
    tree.mark? id = (tree.head? id).map Node.mark := by
  rw [mark?, head?, Option.map_map]
  exact congrArg (Option.map · _) (funext fun node => (Node.mark_bare node).symm)

private theorem head?_of_size_le {tree : Tree} {id : NodeId} (h : tree.size ≤ id) :
    tree.head? id = none := by
  have hnone : tree.get? id = none := Array.getElem?_eq_none h
  rw [head?, hnone, Option.map_none]

private theorem Drawn.getElem?_shape (h : first.Drawn entries) (id : Nat) :
    (Sketch.shape entries)[id]? =
      (first.mark? id).map fun mark => (Sketch.levelAt entries id, mark.label) := by
  rw [h.mark?, Sketch.shape, List.getElem?_map, Sketch.levelAt]
  cases entries[id]? <;> rfl

theorem Drawn.shape_eq (h : first.Drawn entries) (hother : second.Drawn others)
    (hnested : first.nested = second.nested) :
    Sketch.shape entries = Sketch.shape others ∧ ∀ id, first.head? id = second.head? id := by
  have hrows := rows_eq_of_nest_eq h.shaped.forward hother.shaped.forward (Nat.le_refl _)
    (Nat.le_refl _) hnested 0
  rw [rows_eq_range h.shaped, rows_eq_range hother.shaped] at hrows
  have hsize : first.size = second.size := by simpa using congrArg List.length hrows
  have hrow (id : Nat) : first.head? id = second.head? id ∧
      (id < first.size → Sketch.levelAt entries id = Sketch.levelAt others id) := by
    by_cases hid : id < first.size
    · have hget := congrArg (·[id]?) hrows
      have hpair : Sketch.levelAt entries id = Sketch.levelAt others id ∧
          first.head? id = second.head? id := by
        simpa [hid, hsize ▸ hid] using hget
      exact ⟨hpair.2, fun _ => hpair.1⟩
    · have hle := Nat.le_of_not_lt hid
      refine ⟨?_, fun hlt => absurd hlt hid⟩
      rw [head?_of_size_le hle, head?_of_size_le (hsize ▸ hle)]
  refine ⟨List.ext_getElem? fun id => ?_, fun id => (hrow id).1⟩
  rw [h.getElem?_shape, hother.getElem?_shape, mark?_eq_head?, mark?_eq_head?, (hrow id).1]
  by_cases hid : id < first.size
  · rw [(hrow id).2 hid]
  · rw [head?_of_size_le (hsize ▸ Nat.le_of_not_lt hid)]
    rfl

/-- A tree that spells out a sketch is known from what hangs on its root. -/
theorem Spells.eq_of_nested_eq (h : first.Spells entries) (hother : second.Spells others)
    (hnested : first.nested = second.nested) : first = second := by
  obtain ⟨hshape, hhead⟩ := h.drawn.shape_eq hother.drawn hnested
  obtain ⟨hcontents, hnames⟩ := agrees_of_shape h hother hshape
  have hnodes : first.nodes = second.nodes := by
    refine Array.ext_getElem? fun id => ?_
    have hcontent := congrArg (·[id]?) hcontents
    have hbare := hhead id
    simp only [Array.getElem?_map] at hcontent
    rw [head?, head?, get?, get?] at hbare
    cases hnode : first.nodes[id]? with
    | none =>
      rw [hnode] at hcontent
      rw [Option.map_eq_none_iff.mp hcontent.symm]
    | some node =>
      rw [hnode] at hcontent hbare
      obtain ⟨found, hfound, hsame⟩ := Option.map_eq_some_iff.mp hcontent.symm
      rw [hfound] at hbare ⊢
      obtain ⟨span, content⟩ := node
      obtain ⟨span', content'⟩ := found
      obtain rfl : content' = content := hsame
      obtain rfl : span = span' := congrArg Node.span (Option.some.inj hbare)
      rfl
  obtain ⟨nodes, names⟩ := first
  obtain ⟨nodes', names'⟩ := second
  obtain rfl : nodes = nodes' := hnodes
  obtain rfl : names = names' := hnames
  rfl

end Tree

def Script.Unrejected (script : Script) : Prop :=
  ∀ diagnostic ∈ script.diagnostics, ∀ rejection, diagnostic.cause ≠ .rejectedCommand rejection

section Parse

variable {options options' : Options} {checker checker' : Checker} {lines lines' : List String}
  {script script' : Script}

theorem exists_spells_of_unrejected (h : (parseLines options checker lines).result = .ok script)
    (hnone : script.Unrejected) : ∃ entries, script.tree.Spells entries := by
  obtain ⟨reading, _, hsettled⟩ := settled_of_ok h
  have hcut : Review.rejections checker (Progress.read options checker lines).linked reading.asked
      (Progress.read options checker lines).linked.walk.reverse = [] := by
    refine List.eq_nil_iff_forall_not_mem.mpr fun rejected hmem => ?_
    have hcomplaint : Review.complaint (Progress.read options checker lines).linked rejected ∈
        script.diagnostics := by
      rw [hsettled.diagnostics]
      exact List.mem_append_right _ (List.mem_map_of_mem hmem)
    exact hnone _ hcomplaint rejected.2 rfl
  have htree := hsettled.tree
  rw [hcut] at htree
  have hwhole : script.tree = (Progress.read options checker lines).linked := htree
  rw [hwhole]
  exact ⟨reading.entries, hsettled.drawn, hsettled.regular, hsettled.names, hsettled.target?⟩

/-- Trees are the same, numbers and names and all, if they hang on their roots alike. -/
theorem tree_eq_iff_nested_eq (h : (parseLines options checker lines).result = .ok script)
    (h' : (parseLines options' checker' lines').result = .ok script')
    (hnone : script.Unrejected) (hnone' : script'.Unrejected) :
    (script.tree = script'.tree ↔ script.tree.nested = script'.tree.nested) ∧
    ((script.tree.nodes = script'.tree.nodes ∧
        ∀ key, script.tree.find? key = script'.tree.find? key)
      ↔ script.tree.nested = script'.tree.nested) ∧
    script.tree.Located ∧ script'.tree.Located := by
  obtain ⟨entries, hspells⟩ := exists_spells_of_unrejected h hnone
  obtain ⟨entries', hspells'⟩ := exists_spells_of_unrejected h' hnone'
  refine ⟨⟨fun heq => by rw [heq], hspells.eq_of_nested_eq hspells'⟩, ⟨?_, fun hnested => ?_⟩,
    Tree.located_of_shaped hspells.drawn.shaped, Tree.located_of_shaped hspells'.drawn.shaped⟩
  · exact fun heq => Tree.nested_congr heq.1
  · rw [hspells.eq_of_nested_eq hspells' hnested]
    exact ⟨rfl, fun _ => rfl⟩

end Parse

/-- Two scripts with one tree. The lines that are left out differ, and what is found there. -/
theorem tree_eq_of_dropped_lines :
    let lines := ["* one", "\t# two", "-> end", "", "= end", "last"]
    let others := ["* one", "\t# two  ", "-> end", "\t\t\tdeep", "= end", "last"]
    ∃ script script', (parseLines {} .lenient lines).result = .ok script ∧
      (parseLines ⟨.report, true⟩ .lenient others).result = .ok script' ∧
      script.diagnostics = [] ∧ script'.diagnostics = [⟨3, 3, .tooDeep⟩] ∧
      script.tree = script'.tree ∧ script.tree.nested = script'.tree.nested := by
  intro lines others
  have hlines : (parseLines {} .lenient lines).result.toOption.map Script.diagnostics =
      some [] := by
    decide +kernel
  have hothers : (parseLines ⟨.report, true⟩ .lenient others).result.toOption.map
      Script.diagnostics = some [⟨3, 3, .tooDeep⟩] := by
    decide +kernel
  have htrees : (parseLines {} .lenient lines).result.toOption.map Script.tree =
      (parseLines ⟨.report, true⟩ .lenient others).result.toOption.map Script.tree := by
    decide +kernel
  obtain ⟨script, hparse, hdiagnostics⟩ := exists_ok_of_map_toOption hlines
  obtain ⟨script', hparse', hdiagnostics'⟩ := exists_ok_of_map_toOption hothers
  rw [hparse, hparse'] at htrees
  have htree : script.tree = script'.tree := Option.some.inj htrees
  have hnone : script.Unrejected := by simp [Script.Unrejected, hdiagnostics]
  have hnone' : script'.Unrejected := by simp [Script.Unrejected, hdiagnostics']
  exact ⟨script, script', hparse, hparse', hdiagnostics, hdiagnostics', htree,
    (tree_eq_iff_nested_eq hparse hparse' hnone hnone').1.mp htree⟩

end Dialogue
