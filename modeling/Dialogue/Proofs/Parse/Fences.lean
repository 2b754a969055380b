import Mathlib.Data.List.Chain
import Dialogue.Proofs.Parse.Feeding
import Dialogue.Proofs.Tree.Traversal

/-! Fences. While a script is read, a block that is closed holds all that hangs on it, and what
follows it starts behind its end. Blocks that are open have no end yet. -/
namespace Dialogue

theorem le_of_getLast?_eq {ids : List Nat} {id last : Nat} (h : ids.Pairwise (· < ·))
    (hlast : ids.getLast? = some last) (hid : id ∈ ids) : id ≤ last := by
  obtain ⟨before, rfl⟩ := List.getLast?_eq_some_iff.mp hlast
  rcases List.mem_append.mp hid with hbefore | hend
  · exact Nat.le_of_lt ((List.pairwise_append.mp h).2.2 id hbefore last List.mem_cons_self)
  · exact Nat.le_of_eq (List.mem_singleton.mp hend)

theorem Tree.scopes_push {tree : Tree} {parent : NodeId} {node : Node} (hforward : tree.Forward)
    (hparent : tree.isBlock parent = true) (hnode : node.children = [])
    (hscope : node.isScope = true → parent = root) :
    (tree.push parent node).scopes =
      tree.scopes ++ if node.isScope = true then [tree.size] else [] := by
  have hsame : ∀ id ∈ tree.children root,
      (tree.push parent node).isScope id = tree.isScope id := by
    intro id hid
    refine isScope_congr ?_
    rw [mark?_push, if_neg (Nat.ne_of_lt (hforward _ id hid).2)]
  have hadded : (tree.push parent node).isScope tree.size = node.isScope := by
    rw [isScope_eq, label?, mark?_push, if_pos rfl]
    exact Content.isScope_bare _
  rw [scopes, scopes, children_push hparent hnode]
  split
  next hroot =>
    rw [List.filter_append, List.filter_congr hsame, List.filter_singleton, hadded]
    cases node.isScope <;> rfl
  next hother =>
    rw [List.filter_congr hsame, if_neg fun hsome => hother (hscope hsome).symm, List.append_nil]

namespace Draft

/-- Spans as they are after so many lines. -/
structure Fenced (draft : Draft) (count : Nat) : Prop where
  line_lt : ∀ id, id ≠ Tree.root → id < draft.tree.size → draft.tree.lineOf id < count
  closed : ∀ id, id ≠ Tree.root → id < draft.tree.size → id ∉ draft.opened →
    draft.tree.lineOf id < draft.tree.stopOf id ∧ draft.tree.stopOf id ≤ count
  leaf : ∀ id, id < draft.tree.size → draft.tree.isBlock id = false →
    draft.tree.stopOf id = draft.tree.lineOf id + 1
  inside : ∀ parent, parent ≠ Tree.root → parent ∉ draft.opened →
    ∀ child ∈ draft.tree.children parent,
      child ∉ draft.opened ∧ draft.tree.stopOf child ≤ draft.tree.stopOf parent
  siblings : ∀ id, (draft.tree.children id).Pairwise fun child next =>
    child ∉ draft.opened ∧ draft.tree.stopOf child ≤ draft.tree.lineOf next
  sections : draft.tree.scopes.IsChain fun id next =>
    id ∉ draft.opened ∧ draft.tree.stopOf id = draft.tree.lineOf next

namespace Fenced

variable {draft : Draft} {tree : Tree} {entries : List Entry} {count number : Nat}
  {opened inner outer : List NodeId}

theorem mono (h : draft.Fenced count) {more : Nat} (hle : count ≤ more) : draft.Fenced more := by
  refine ⟨fun id hne hid => ?_, fun id hne hid hclosed => ?_, h.leaf, h.inside, h.siblings,
    h.sections⟩
  · exact Nat.lt_of_lt_of_le (h.line_lt id hne hid) hle
  · obtain ⟨hlt, hstop⟩ := h.closed id hne hid hclosed
    exact ⟨hlt, Nat.le_trans hstop hle⟩

theorem closeEach (h : Fenced ⟨tree, inner ++ outer⟩ count) (hforward : tree.Forward)
    (hblocks : ∀ id ∈ inner, tree.isBlock id = true)
    (hsorted : (inner ++ outer).Pairwise (· > ·)) :
    Fenced ⟨tree.closeEach count inner, outer⟩ count := by
  have hline (id : NodeId) : (tree.closeEach count inner).lineOf id = tree.lineOf id :=
    Tree.lineOf_congr (Tree.mark?_closeEach ..)
  have hblock (id : NodeId) : (tree.closeEach count inner).isBlock id = tree.isBlock id :=
    Tree.isBlock_congr (Tree.mark?_closeEach ..)
  have hscopes : (tree.closeEach count inner).scopes = tree.scopes :=
    Tree.scopes_congr (Tree.mark?_closeEach _ _ _) (Tree.children_closeEach ..)
  have hkept {id : NodeId} (hid : id ∉ inner ++ outer) :
      id ∉ outer ∧ (tree.closeEach count inner).stopOf id = tree.stopOf id := by
    rw [List.mem_append, not_or] at hid
    exact ⟨hid.2, Tree.stopOf_closeEach_of_not_mem hid.1⟩
  have hshut {id : NodeId} (hid : id < tree.size) (hinner : id ∈ inner) :
      (tree.closeEach count inner).stopOf id = count := by
    rw [Tree.stopOf_closeEach hid, if_pos hinner]
  have hclosed (id : NodeId) (hne : id ≠ Tree.root) (hid : id < tree.size) (hnot : id ∉ outer) :
      tree.lineOf id < (tree.closeEach count inner).stopOf id ∧
        (tree.closeEach count inner).stopOf id ≤ count := by
    by_cases hinner : id ∈ inner
    · rw [hshut hid hinner]
      exact ⟨h.line_lt id hne hid, Nat.le_refl _⟩
    · have hnone : id ∉ inner ++ outer := by
        rw [List.mem_append, not_or]
        exact ⟨hinner, hnot⟩
      rw [(hkept hnone).2]
      exact h.closed id hne hid hnone
  constructor
  · intro id hne hid
    rw [hline]
    exact h.line_lt id hne (Tree.size_closeEach tree .. ▸ hid)
  · intro id hne hid hnot
    rw [hline]
    exact hclosed id hne (Tree.size_closeEach tree .. ▸ hid) hnot
  · intro id hid hleaf
    rw [hblock] at hleaf
    have hnot : id ∉ inner := fun hinner => by
      rw [hblocks id hinner] at hleaf
      contradiction
    rw [hline, Tree.stopOf_closeEach_of_not_mem hnot]
    exact h.leaf id (Tree.size_closeEach tree .. ▸ hid) hleaf
  · intro parent hne hnot child hchild
    rw [Tree.children_closeEach] at hchild
    obtain ⟨hlt, hin⟩ := hforward parent child hchild
    have hchildNe : child ≠ Tree.root := Nat.ne_of_gt (Nat.zero_lt_of_lt hlt)
    by_cases hinner : parent ∈ inner
    · -- The children of a block that is closed now were closed before or are inner blocks, too.
      have houter : child ∉ outer := fun hmem =>
        Nat.lt_asymm hlt ((List.pairwise_append.mp hsorted).2.2 parent hinner child hmem)
      rw [hshut (Nat.lt_trans hlt hin) hinner]
      exact ⟨houter, (hclosed child hchildNe hin houter).2⟩
    · have hnone : parent ∉ inner ++ outer := by
        rw [List.mem_append, not_or]
        exact ⟨hinner, hnot⟩
      obtain ⟨hchildNot, hle⟩ := h.inside parent hne hnone child hchild
      rw [(hkept hnone).2, (hkept hchildNot).2]
      exact ⟨(hkept hchildNot).1, hle⟩
  · intro id
    rw [Tree.children_closeEach]
    refine (h.siblings id).imp ?_
    rintro child next ⟨hnot, hle⟩
    rw [hline, (hkept hnot).2]
    exact ⟨(hkept hnot).1, hle⟩
  · rw [hscopes]
    refine h.sections.imp ?_
    rintro id next ⟨hnot, heq⟩
    rw [hline, (hkept hnot).2]
    exact ⟨(hkept hnot).1, heq⟩

theorem push {next : List NodeId} {parent : NodeId} {node : Node}
    (h : Fenced ⟨tree, opened⟩ count) (hforward : tree.Forward)
    (hparent : tree.isBlock parent = true) (hnode : node.children = [])
    (hstart : node.span.line = count) (hstop : node.span.stop = count + 1)
    (hnext : ∀ id < tree.size, id ∈ next ↔ id ∈ opened)
    (hopen : parent ≠ Tree.root → parent ∈ next)
    (hfresh : ∀ child ∈ tree.children parent, child ∉ opened)
    (hscope : node.isScope = true → parent = Tree.root ∧
      ∀ last ∈ tree.scopes.getLast?, tree.stopOf last = count) :
    Fenced ⟨tree.push parent node, next⟩ (count + 1) := by
  have hline (id : NodeId) : (tree.push parent node).lineOf id =
      if id = tree.size then count else tree.lineOf id := by
    rw [Tree.lineOf_eq, Tree.lineOf_eq, Tree.mark?_push]
    split
    · exact hstart
    · rfl
  have hlast (id : NodeId) : (tree.push parent node).stopOf id =
      if id = tree.size then count + 1 else tree.stopOf id := by
    rw [Tree.stopOf_push, hstop]
  have hchildren := Tree.children_push hparent hnode
  have hkept {id : NodeId} (hid : id < tree.size) :
      (tree.push parent node).lineOf id = tree.lineOf id ∧
        (tree.push parent node).stopOf id = tree.stopOf id := by
    rw [hline, hlast, if_neg (Nat.ne_of_lt hid), if_neg (Nat.ne_of_lt hid)]
    exact ⟨rfl, rfl⟩
  have hnew : (tree.push parent node).lineOf tree.size = count ∧
      (tree.push parent node).stopOf tree.size = count + 1 := by
    rw [hline, hlast, if_pos rfl, if_pos rfl]
    exact ⟨rfl, rfl⟩
  have hcases {id : NodeId} (hid : id < (tree.push parent node).size) :
      id < tree.size ∨ id = tree.size := by
    rw [Tree.size_push] at hid
    exact Nat.lt_or_eq_of_le (Nat.le_of_lt_succ hid)
  constructor
  · intro id hne hid
    rcases hcases hid with hold | rfl
    · rw [(hkept hold).1]
      exact Nat.lt_succ_of_lt (h.line_lt id hne hold)
    · rw [hnew.1]
      exact Nat.lt_succ_self _
  · intro id hne hid hnot
    rcases hcases hid with hold | rfl
    · obtain ⟨hlt, hle⟩ := h.closed id hne hold fun hin => hnot ((hnext id hold).mpr hin)
      rw [(hkept hold).1, (hkept hold).2]
      exact ⟨hlt, Nat.le_succ_of_le hle⟩
    · rw [hnew.1, hnew.2]
      exact ⟨Nat.lt_succ_self _, Nat.le_refl _⟩
  · intro id hid hleaf
    rcases hcases hid with hold | rfl
    · rw [(hkept hold).1, (hkept hold).2]
      refine h.leaf id hold ?_
      have hmark := Tree.mark?_push tree parent id node
      rw [if_neg (Nat.ne_of_lt hold)] at hmark
      rw [← Tree.isBlock_congr hmark]
      exact hleaf
    · rw [hnew.1, hnew.2]
  · intro above hne hnot child hchild
    rw [hchildren] at hchild
    split at hchild
    next heq => exact absurd (hopen (heq ▸ hne)) (heq ▸ hnot)
    next =>
      obtain ⟨hlt, hin⟩ := hforward above child hchild
      have habove := Nat.lt_trans hlt hin
      obtain ⟨hclosed, hle⟩ :=
        h.inside above hne (fun hmem => hnot ((hnext above habove).mpr hmem)) child hchild
      rw [(hkept hin).2, (hkept habove).2]
      exact ⟨fun hmem => hclosed ((hnext child hin).mp hmem), hle⟩
  · intro id
    have hold : (tree.children id).Pairwise fun child next' =>
        child ∉ next ∧ (tree.push parent node).stopOf child ≤
          (tree.push parent node).lineOf next' := by
      refine (h.siblings id).imp_of_mem ?_
      rintro child other hchild hother ⟨hclosed, hle⟩
      have hin := (hforward id child hchild).2
      rw [(hkept hin).2, (hkept (hforward id other hother).2).1]
      exact ⟨fun hmem => hclosed ((hnext child hin).mp hmem), hle⟩
    rw [hchildren]
    split
    next heq =>
      refine List.pairwise_append.mpr ⟨hold, List.pairwise_singleton .., ?_⟩
      intro child hchild last hmem
      obtain rfl := List.mem_singleton.mp hmem
      obtain ⟨hlt, hin⟩ := hforward id child hchild
      have hclosed := hfresh child (heq ▸ hchild)
      rw [hnew.1, (hkept hin).2]
      refine ⟨fun hmem => hclosed ((hnext child hin).mp hmem), ?_⟩
      exact (h.closed child (Nat.ne_of_gt (Nat.zero_lt_of_lt hlt)) hin hclosed).2
    next => exact hold
  · have hscopes := Tree.scopes_push hforward hparent hnode fun hsome => (hscope hsome).1
    have hmem {id : NodeId} (hid : id ∈ tree.scopes) : id < tree.size :=
      (hforward _ id (List.mem_filter.mp hid).1).2
    have hold : tree.scopes.IsChain fun id other =>
        id ∉ next ∧ (tree.push parent node).stopOf id = (tree.push parent node).lineOf other := by
      refine h.sections.imp_of_mem_imp ?_
      rintro id other hid hother ⟨hclosed, heq⟩
      rw [(hkept (hmem hid)).2, (hkept (hmem hother)).1]
      exact ⟨fun hin => hclosed ((hnext id (hmem hid)).mp hin), heq⟩
    rw [hscopes]
    split
    next hsome =>
      obtain ⟨hroot, hend⟩ := hscope hsome
      refine hold.append (.singleton _) fun last hlast first hfirst => ?_
      obtain rfl : tree.size = first := Option.some.inj hfirst
      have hin := List.mem_of_getLast? hlast
      rw [(hkept (hmem hin)).2, hnew.1]
      refine ⟨fun hopened => ?_, hend last hlast⟩
      exact hfresh last (hroot ▸ (List.mem_filter.mp hin).1) ((hnext last (hmem hin)).mp hopened)
    next =>
      rw [List.append_nil]
      exact hold

theorem pushInnermost {next : List NodeId} {node : Node} (h : draft.Fenced count)
    (hmatches : draft.Matches entries) (hnode : node.children = [])
    (hscope : node.isScope = false) (hstart : node.span.line = count)
    (hstop : node.span.stop = count + 1)
    (hnext : ∀ id < draft.tree.size, id ∈ next ↔ id ∈ draft.opened) :
    Fenced ⟨draft.tree.push draft.innermost node, next⟩ (count + 1) := by
  have hdrawn := hmatches.drawn
  obtain ⟨below, hopened, hbranch⟩ := hmatches.branch_cons
  have hinnermost : draft.innermost ∈ draft.opened := by
    rw [hopened]
    exact List.mem_cons_self
  refine push h hdrawn.shaped.forward ?_ hnode hstart hstop hnext (fun _ => ?_)
    (fun child hchild => ?_) fun hsome => ?_
  · exact (hdrawn.isBlock _).trans hbranch.isBlockAt_head
  · refine (hnext _ ?_).mpr hinnermost
    exact hdrawn.size_eq ▸ hbranch.isRightmost_head.lt
  · show child ∉ draft.opened
    rw [hopened]
    exact hbranch.not_mem_of_head_lt (hdrawn.shaped.forward _ child hchild).1
  · rw [hscope] at hsome
    contradiction

private theorem addLeaf (h : draft.Fenced count) (hmatches : draft.Matches entries) (column : Nat)
    (leaf : Leaf) : (draft.addLeaf (.single count column) leaf).Fenced (count + 1) :=
  h.pushInnermost hmatches rfl rfl rfl rfl fun _ _ => Iff.rfl

private theorem addBlock (h : draft.Fenced count) (hmatches : draft.Matches entries) (column : Nat)
    {block : Block} (hscope : block.isScope = false) :
    (draft.addBlock (.single count column) block).Fenced (count + 1) := by
  refine h.pushInnermost hmatches rfl hscope rfl rfl fun id hid => ?_
  rw [List.mem_cons, or_iff_right (Nat.ne_of_lt hid)]

theorem extend (h : draft.Fenced count) (hmatches : draft.Matches entries) {id : NodeId}
    (hid : draft.extensible? = some id) (text : String) :
    (draft.extend id count text).Fenced (count + 1) := by
  have hdrawn := hmatches.drawn
  have hextended := hdrawn.extend id count text
  obtain ⟨below, hopened, _⟩ := hmatches.branch_cons
  have hsketch := hid
  rw [extensible?_eq hdrawn hmatches.isRightmost, Sketch.extensible?_eq_some_iff] at hsketch
  obtain ⟨hend, entry, hentry, hcommand, _⟩ := hsketch
  obtain ⟨hblock, hplain⟩ := Entry.isBlock_of_isCommand hcommand
  have hlabel : draft.tree.label? id = some entry.mark.label := by
    rw [hdrawn.label?, Sketch.labelAt?, hentry]
    rfl
  have hmember : id ∈ draft.tree.children draft.innermost :=
    List.mem_of_getLast? (Option.filter_eq_some_iff.mp hid).1
  have hlast {other : NodeId} (hother : other < draft.tree.size) : other ≤ id := by
    rw [hdrawn.size_eq, ← hend] at hother
    exact Nat.le_of_lt_succ hother
  have hline (other : NodeId) :
      (draft.extend id count text).tree.lineOf other = draft.tree.lineOf other := by
    rw [hdrawn.lineOf, ← Sketch.lineAt_extend]
    exact hextended.lineOf other
  have hscope : (draft.extend id count text).tree.isScope = draft.tree.isScope := by
    funext other
    rw [hdrawn.isScope, ← Sketch.isScopeAt_extend]
    exact hextended.isScope other
  have hchildren (other : NodeId) :
      (draft.extend id count text).tree.children other = draft.tree.children other := by
    refine Tree.children_modify fun node => ?_
    unfold Node.extend
    split <;> rfl
  have hstop {other : NodeId} (hne : other ≠ id) :
      (draft.extend id count text).tree.stopOf other = draft.tree.stopOf other := by
    show (draft.tree.modify id _).stopOf other = _
    rw [Tree.stopOf, Tree.stopOf, Tree.get?_modify, if_neg hne.symm]
  have hsize : (draft.extend id count text).tree.size = draft.tree.size := Tree.size_modify ..
  have hnot {other : NodeId} (hclosed : other ∉ draft.opened) (hne : other ≠ id) :
      other ∉ id :: draft.opened := by
    rw [List.mem_cons, not_or]
    exact ⟨hne, hclosed⟩
  constructor
  · intro other hne hother
    rw [hline]
    exact Nat.lt_succ_of_lt (h.line_lt other hne (hsize ▸ hother))
  · intro other hne hother hclosed
    obtain ⟨hnew, hold⟩ := not_or.mp (List.mem_cons.not.mp hclosed)
    obtain ⟨hlt, hle⟩ := h.closed other hne (hsize ▸ hother) hold
    rw [hline, hstop hnew]
    exact ⟨hlt, Nat.le_succ_of_le hle⟩
  · intro other hother hleaf
    have hsame : draft.tree.isBlock other = false := by
      rw [hdrawn.isBlock, ← Sketch.isBlockAt_extend entries id text]
      exact (hextended.isBlock other).symm.trans hleaf
    have hne : other ≠ id := by
      rintro rfl
      rw [Tree.isBlock, hlabel, Option.any_some, hblock] at hsame
      contradiction
    rw [hline, hstop hne]
    exact h.leaf other (hsize ▸ hother) hsame
  · intro parent hne hclosed child hchild
    obtain ⟨hnew, hold⟩ := not_or.mp (List.mem_cons.not.mp hclosed)
    rw [hchildren] at hchild
    obtain ⟨hchildClosed, hle⟩ := h.inside parent hne hold child hchild
    have hchildNe : child ≠ id := by
      rintro rfl
      have hparent := ((hdrawn.shaped.mem_children_iff _ _).mp hchild).2
      rw [hparent.eq ((hdrawn.shaped.mem_children_iff _ _).mp hmember).2, hopened] at hold
      exact hold List.mem_cons_self
    rw [hstop hnew, hstop hchildNe]
    exact ⟨hnot hchildClosed hchildNe, hle⟩
  · intro parent
    rw [hchildren]
    refine ((h.siblings parent).and (hdrawn.shaped.sorted parent)).imp_of_mem ?_
    rintro child next - hnext ⟨⟨hclosed, hle⟩, hlt⟩
    have hne : child ≠ id := by
      have hbefore := hlast (hdrawn.shaped.forward parent next hnext).2
      exact Nat.ne_of_lt (Nat.lt_of_lt_of_le hlt hbefore)
    rw [hline, hstop hne]
    exact ⟨hnot hclosed hne, hle⟩
  · have hscopes : (draft.extend id count text).tree.scopes = draft.tree.scopes := by
      rw [Tree.scopes, Tree.scopes, hchildren, hscope]
    rw [hscopes]
    refine h.sections.imp_of_mem_imp ?_
    rintro other next hother - ⟨hclosed, heq⟩
    have hne : other ≠ id := by
      rintro rfl
      have hsome := (List.mem_filter.mp hother).2
      rw [Tree.isScope_eq, hlabel, Option.any_some, hplain] at hsome
      contradiction
    rw [hline, hstop hne]
    exact ⟨hnot hclosed hne, heq⟩

theorem closeAll (h : draft.Fenced count) (hmatches : draft.Matches entries) :
    (draft.closeAll count).Fenced count ∧
      ∀ last ∈ draft.tree.scopes.getLast?, (draft.closeAll count).tree.stopOf last = count := by
  have hdrawn := hmatches.drawn
  refine ⟨?_, fun last hlast => ?_⟩
  · obtain ⟨tree, opened⟩ := draft
    refine closeEach ((List.append_nil opened).symm ▸ h) hdrawn.shaped.forward (fun id hid => ?_)
      ((List.append_nil opened).symm ▸ hmatches.branch.sorted)
    exact (hdrawn.isBlock id).trans (hmatches.branch.isBlockAt_of_mem hid)
  · have hmem := List.mem_of_getLast? hlast
    have hscope : Sketch.isScopeAt entries last = true :=
      (hdrawn.isScope last).symm.trans (List.mem_filter.mp hmem).2
    have hopened : last ∈ draft.opened := by
      refine hmatches.branch.mem_of_last_scope hscope fun other hother => ?_
      rcases Nat.eq_zero_or_pos other with rfl | hpos
      · exact Nat.zero_le _
      · refine le_of_getLast?_eq ((hdrawn.shaped.sorted _).filter _) hlast ?_
        refine List.mem_filter.mpr ⟨?_, (hdrawn.isScope other).trans hother⟩
        exact hdrawn.mem_children_root hmatches.regular (Nat.ne_of_gt hpos) hother
    have hin : last < draft.tree.size :=
      hdrawn.size_eq ▸ hmatches.branch.lt_length_of_mem hopened
    rw [tree_closeAll, Tree.stopOf_closeEach hin, if_pos hopened]

private theorem addScope (h : draft.Fenced count) (hmatches : draft.Matches entries) (column : Nat)
    (key : String) : (draft.addScope (.single count column) key).Fenced (count + 1) := by
  obtain ⟨hclosed, hlast⟩ := h.closeAll hmatches
  have hdrawn := drawn_closeAll hmatches.drawn count
  have hscopes : (draft.closeAll count).tree.scopes = draft.tree.scopes :=
    Tree.scopes_congr (Tree.mark?_closeEach _ _ _) (Tree.children_closeEach ..)
  refine push hclosed hdrawn.shaped.forward ?_ rfl rfl rfl (fun id hid => ?_)
    (fun hne => absurd rfl hne) (fun _ _ => List.not_mem_nil) fun _ => ⟨rfl, ?_⟩
  · refine (hdrawn.isBlock _).trans ?_
    exact Sketch.isBlockAt_of_isScopeAt hmatches.regular.isScopeAt_root
  · refine iff_of_false (fun hmem => ?_) List.not_mem_nil
    exact Nat.ne_of_lt hid (List.mem_singleton.mp hmem)
  · show ∀ last ∈ (draft.closeAll count).tree.scopes.getLast?, _
    rw [hscopes]
    exact hlast

theorem grow (h : draft.Fenced number) (hmatches : draft.Matches entries) (growth : Growth) :
    (draft.grow number growth).Fenced (number + 1) := by
  cases growth with
  | nothing => exact h.mono (Nat.le_succ _)
  | leaf column leaf => exact h.addLeaf hmatches column leaf
  | choice column text condition => exact h.addBlock hmatches column rfl
  | command column text =>
    simp only [Draft.grow]
    split
    next id hid => exact h.extend hmatches hid text
    next => exact h.addBlock hmatches column rfl
  | scope column key declared =>
    have hadded := h.addScope hmatches column key
    cases declared with
    | false => exact hadded
    | true => exact ⟨hadded.1, hadded.2, hadded.3, hadded.4, hadded.5, hadded.6⟩

theorem shut (h : draft.Fenced count) (hmatches : draft.Matches entries) (depth : Nat) :
    (draft.shut depth count).Fenced count := by
  obtain ⟨tree, opened⟩ := draft
  have hall := List.take_append_drop (opened.length - depth) opened
  refine closeEach (hall.symm ▸ h) hmatches.drawn.shaped.forward (fun id hid => ?_)
    (hall.symm ▸ hmatches.branch.sorted)
  exact (hmatches.drawn.isBlock id).trans
    (hmatches.branch.isBlockAt_of_mem (List.mem_of_mem_take hid))

end Fenced

private theorem fenced_empty : Draft.empty.Fenced 0 := by
  have hchildren (id : NodeId) : Draft.empty.tree.children id = [] := by
    cases id <;> rfl
  refine ⟨fun id hne hid => ?_, fun id hne hid _ => ?_, fun id hid hleaf => ?_,
    fun parent _ _ child hchild => ?_, fun id => ?_, .nil⟩
  · exact absurd (Nat.lt_one_iff.mp hid) hne
  · exact absurd (Nat.lt_one_iff.mp hid) hne
  · obtain rfl : id = 0 := Nat.lt_one_iff.mp hid
    rfl
  · rw [hchildren] at hchild
    contradiction
  · rw [hchildren]
    exact .nil

end Draft

/-- Every line keeps the fences, also one that is blank or too deep. -/
theorem Progress.fenced_before {options : Options} {checker : Checker} {lines : List String}
    {reading : Reading} (h : Reading.read options checker lines = .ok reading) {i : Nat}
    (hi : i ≤ lines.length) : (before options checker lines i).draft.Fenced i := by
  induction i with
  | zero => exact Draft.fenced_empty
  | succ i ih =>
    have hfenced := ih (Nat.le_of_succ_le hi)
    have hmatches := matches_stage h i
    rcases draft_before_succ h hi with hsame | ⟨depth, growth, hpos, hroom, hnext⟩
    · rw [hsame]
      exact hfenced.mono (Nat.le_succ i)
    · obtain ⟨hshut, _⟩ := hmatches.draft.shut hpos hroom i
      rw [hnext]
      exact (hfenced.shut hmatches.draft depth).grow hshut growth

end Dialogue
