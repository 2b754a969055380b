import Dialogue.Proofs.Parse.Arena
import Dialogue.Proofs.Parse.Fences

/-! Spans. The spans of a parsed script are nested like its nodes, and the sections take up the
script from the first of them to its end. -/
namespace Dialogue
namespace Tree

def covers (tree : Tree) (line : Nat) (id : NodeId) : Bool :=
  (tree.get? id).any (·.span.contains line)

/-- Spans that tile a script of so many lines. -/
structure Tiled (tree : Tree) (lineCount : Nat) : Prop where
  rooted : ∃ node, tree.get? root = some node ∧ node.span.line = 0 ∧ node.span.stop = lineCount
  span : ∀ id node, id ≠ root → tree.get? id = some node →
    node.span.line < node.span.stop ∧ node.span.stop ≤ lineCount
  leaf : ∀ id span leaf, tree.get? id = some ⟨span, .leaf leaf⟩ → span.stop = span.line + 1
  inside : ∀ parent child, child ∈ tree.children parent →
    tree.lineOf parent ≤ tree.lineOf child ∧ tree.stopOf child ≤ tree.stopOf parent
  behind : ∀ parent child, parent ≠ root → child ∈ tree.children parent →
    tree.lineOf parent < tree.lineOf child
  siblings : ∀ id, (tree.children id).Pairwise fun child next =>
    tree.stopOf child ≤ tree.lineOf next
  sections : tree.scopes.IsChain fun id next => tree.stopOf id = tree.lineOf next
  last : ∀ id ∈ tree.scopes.getLast?, tree.stopOf id = lineCount

variable {tree : Tree} {lineCount line levels : Nat} {id other : NodeId} {ids : List NodeId}

theorem covers_iff (hid : id < tree.size) :
    tree.covers line id = true ↔ tree.lineOf id ≤ line ∧ line < tree.stopOf id := by
  have hnode : tree.get? id = some tree.nodes[id] := Array.getElem?_eq_getElem hid
  rw [covers, lineOf, stopOf, hnode]
  simp [Span.contains]

private theorem within_of_mem_below (h : other ∈ tree.below levels id) : tree.Within id other := by
  induction levels generalizing id with
  | zero => contradiction
  | succ levels ih =>
    obtain ⟨child, hchild, hother⟩ := List.mem_flatMap.mp h
    refine within_iff_eq_or_child.mpr (.inr ⟨child, hchild, ?_⟩)
    rcases List.mem_cons.mp hother with rfl | hbelow
    · exact .self
    · exact ih hbelow

theorem stopOf_detach (tree : Tree) (ids : List NodeId) (id : NodeId) :
    (tree.detach ids).stopOf id = tree.stopOf id := by
  rw [stopOf, stopOf, get?_detach]
  cases tree.get? id <;> rfl

namespace Tiled

theorem covers_of_within (h : tree.Tiled lineCount) (hforward : tree.Forward)
    (hwithin : tree.Within id other) (hcovers : tree.covers line other = true) :
    tree.covers line id = true := by
  induction hwithin with
  | self => exact hcovers
  | child _ hchild ih =>
    obtain ⟨hlt, hin⟩ := hforward _ _ hchild
    obtain ⟨hstart, hstop⟩ := (covers_iff hin).mp hcovers
    obtain ⟨hline, hend⟩ := h.inside _ _ hchild
    refine ih ((covers_iff (Nat.lt_trans hlt hin)).mpr ⟨?_, ?_⟩)
    · exact Nat.le_trans hline hstart
    · exact Nat.lt_of_lt_of_le hstop hend

/-- Only one of several siblings covers a line, and with it what is below it. -/
theorem filter_covers_siblings (h : tree.Tiled lineCount) (hforward : tree.Forward)
    (hin : ∀ child ∈ ids, child < tree.size)
    (hsiblings : ids.Pairwise fun child next => tree.stopOf child ≤ tree.lineOf next) :
    (ids.flatMap fun child => (child :: tree.below levels child).filter (tree.covers line)) = [] ∨
      ∃ child ∈ ids,
        (ids.flatMap fun child => (child :: tree.below levels child).filter (tree.covers line)) =
          child :: (tree.below levels child).filter (tree.covers line) := by
  have houtside (child : NodeId) (hnot : tree.covers line child = false) :
      (child :: tree.below levels child).filter (tree.covers line) = [] := by
    refine List.filter_eq_nil_iff.mpr fun node hnode hcovers => ?_
    have hwithin : tree.Within child node := by
      rcases List.mem_cons.mp hnode with rfl | hbelow
      · exact .self
      · exact within_of_mem_below hbelow
    rw [h.covers_of_within hforward hwithin hcovers] at hnot
    contradiction
  induction ids with
  | nil => exact .inl rfl
  | cons child rest ih =>
    obtain ⟨hbefore, hrest⟩ := List.pairwise_cons.mp hsiblings
    have hchild := hin child List.mem_cons_self
    have hmore (other : NodeId) (hother : other ∈ rest) :=
      hin other (List.mem_cons_of_mem child hother)
    rw [List.flatMap_cons]
    cases hcovers : tree.covers line child with
    | false =>
      rw [houtside child hcovers, List.nil_append]
      refine (ih hmore hrest).imp_right ?_
      rintro ⟨other, hother, heq⟩
      exact ⟨other, List.mem_cons_of_mem child hother, heq⟩
    | true =>
      have hnone : (rest.flatMap fun child =>
          (child :: tree.below levels child).filter (tree.covers line)) = [] := by
        refine List.flatMap_eq_nil_iff.mpr fun other hother => houtside other ?_
        refine Bool.eq_false_iff.mpr fun hboth => ?_
        have hstop := ((covers_iff hchild).mp hcovers).2
        have hstart := ((covers_iff (hmore other hother)).mp hboth).1
        have hdisjoint := hbefore other hother
        omega
      refine .inr ⟨child, List.mem_cons_self, ?_⟩
      rw [hnone, List.append_nil, List.filter_cons_of_pos hcovers]

/-- The nodes that cover a line hang on one another. -/
theorem isChain_covers_below (h : tree.Tiled lineCount) (hforward : tree.Forward)
    (levels line : Nat) (id : NodeId) :
    (id :: (tree.below levels id).filter (tree.covers line)).IsChain
      fun id next => next ∈ tree.children id := by
  induction levels generalizing id with
  | zero => exact .singleton id
  | succ levels ih =>
    rw [below, List.filter_flatMap]
    obtain hnone | ⟨child, hchild, hone⟩ : ((tree.children id).flatMap fun child =>
        (child :: tree.below levels child).filter (tree.covers line)) = [] ∨ _ :=
      h.filter_covers_siblings hforward (fun child hchild => (hforward id child hchild).2)
        (h.siblings id)
    · rw [hnone]
      exact .singleton id
    · rw [hone]
      exact .cons_cons hchild (ih child)

theorem detach (h : tree.Tiled lineCount) (hplain : ∀ id ∈ ids, tree.isScope id = false) :
    (tree.detach ids).Tiled lineCount := by
  have hline (id : NodeId) : (tree.detach ids).lineOf id = tree.lineOf id :=
    lineOf_congr (mark?_detach ..)
  have hscope : (tree.detach ids).isScope = tree.isScope :=
    funext fun id => isScope_congr (mark?_detach ..)
  have hscopes : (tree.detach ids).scopes = tree.scopes := by
    rw [scopes, scopes, children_detach, hscope, List.filter_filter]
    refine List.filter_congr fun id _ => ?_
    cases hid : tree.isScope id with
    | false => rfl
    | true =>
      rw [Bool.true_and, decide_eq_true_eq]
      intro hcut
      rw [hplain id hcut] at hid
      contradiction
  have hchild {parent child : NodeId} (hmem : child ∈ (tree.detach ids).children parent) :
      child ∈ tree.children parent := by
    rw [children_detach] at hmem
    exact (List.mem_filter.mp hmem).1
  constructor
  · obtain ⟨node, hnode, hspan⟩ := h.rooted
    refine ⟨node.mapChildren (·.filter (· ∉ ids)), ?_, hspan⟩
    rw [get?_detach, hnode]
    rfl
  · intro id node hne hnode
    rw [get?_detach] at hnode
    obtain ⟨old, hold, rfl⟩ := Option.map_eq_some_iff.mp hnode
    exact h.span id old hne hold
  · intro id span leaf hnode
    rw [get?_detach] at hnode
    obtain ⟨⟨oldSpan, content⟩, hold, heq⟩ := Option.map_eq_some_iff.mp hnode
    obtain ⟨rfl, hcontent⟩ := Node.mk.inj heq
    cases content with
    | block => cases hcontent
    | leaf old => exact h.leaf id _ old hold
  · intro parent child hmem
    rw [hline, hline, stopOf_detach, stopOf_detach]
    exact h.inside parent child (hchild hmem)
  · intro parent child hne hmem
    rw [hline, hline]
    exact h.behind parent child hne (hchild hmem)
  · intro id
    rw [children_detach]
    simp only [hline, stopOf_detach]
    exact (h.siblings id).filter _
  · rw [hscopes]
    simp only [hline, stopOf_detach]
    exact h.sections
  · rw [hscopes]
    simp only [stopOf_detach]
    exact h.last

end Tiled
end Tree

theorem Progress.linked_keeps {α : Type} {f : Tree → α}
    (hf : ∀ tree link, f (Link.resolve tree link) = f tree) (progress : Progress) :
    f progress.linked = f progress.closed := by
  unfold linked
  rw [← Array.foldl_toList]
  generalize progress.links.toList = links, progress.closed = tree
  induction links generalizing tree with
  | nil => rfl
  | cons link rest ih => exact (ih (Link.resolve tree link)).trans (hf tree link)

private theorem Link.stopOf_resolve (tree : Tree) (link : Link) (id : NodeId) :
    (link.resolve tree).stopOf id = tree.stopOf id := by
  unfold resolve
  split
  · refine Tree.stopOf_modify fun node => ?_
    unfold Node.aim
    split <;> rfl
  · rfl

theorem Progress.stopOf_linked (progress : Progress) (id : NodeId) :
    progress.linked.stopOf id = ((progress.draft.closeAll progress.lineCount).tree.closeEach
      progress.lineCount [Tree.root]).stopOf id :=
  linked_keeps (f := fun tree => tree.stopOf id)
    (fun tree link => Link.stopOf_resolve tree link id) progress

theorem Draft.Fenced.tiled {draft : Draft} {whole : Tree} {entries : List Entry} {count : Nat}
    (h : draft.Fenced count) (hopened : draft.opened = [])
    (hlast : ∀ last ∈ draft.tree.scopes.getLast?, draft.tree.stopOf last = count)
    (hdrawn : draft.tree.Drawn entries) (hwhole : whole.Drawn entries)
    (hregular : Sketch.Regular entries)
    (hlines : ∀ id next : NodeId, 0 < id → id < next → next < whole.size →
      whole.lineOf id < whole.lineOf next)
    (hroot : whole.stopOf Tree.root = count)
    (hstop : ∀ id, id ≠ Tree.root → whole.stopOf id = draft.tree.stopOf id) :
    whole.Tiled count := by
  have hsize : whole.size = draft.tree.size := hwhole.size_eq.trans hdrawn.size_eq.symm
  have hline (id : NodeId) : draft.tree.lineOf id = whole.lineOf id :=
    (hdrawn.lineOf id).trans (hwhole.lineOf id).symm
  have hchildren : whole.children = draft.tree.children := hdrawn.children_eq hwhole
  have hscopes : whole.scopes = draft.tree.scopes :=
    Tree.scopes_congr (fun id => (hwhole.mark? id).trans (hdrawn.mark? id).symm)
      (congrFun hchildren _)
  have hfirst : whole.lineOf Tree.root = 0 := by
    rw [hwhole.lineOf, Sketch.lineAt, Tree.root, hregular.root]
    rfl
  have hedge {parent child : NodeId} (hchild : child ∈ whole.children parent) :
      parent < child ∧ child < whole.size ∧ child ≠ Tree.root := by
    obtain ⟨hlt, hin⟩ := hwhole.shaped.forward parent child hchild
    exact ⟨hlt, hin, Nat.ne_of_gt (Nat.zero_lt_of_lt hlt)⟩
  have hspan {id : NodeId} (hne : id ≠ Tree.root) (hid : id < whole.size) :
      whole.lineOf id < whole.stopOf id ∧ whole.stopOf id ≤ count := by
    rw [hstop id hne, ← hline]
    exact h.closed id hne (hsize ▸ hid) (hopened ▸ List.not_mem_nil)
  have hbehind {parent child : NodeId} (hne : parent ≠ Tree.root)
      (hchild : child ∈ whole.children parent) : whole.lineOf parent < whole.lineOf child := by
    obtain ⟨hlt, hin, _⟩ := hedge hchild
    exact hlines parent child (Nat.pos_of_ne_zero hne) hlt hin
  constructor
  · have hpos : 0 < whole.nodes.size := hwhole.shaped.size_pos
    have hnode : whole.get? Tree.root = some whole.nodes[0] := Array.getElem?_eq_getElem hpos
    refine ⟨_, hnode, ?_, ?_⟩
    · rw [← Tree.lineOf_of_get? hnode, hfirst]
    · rw [← Tree.stopOf_of_get? hnode, hroot]
  · intro id node hne hnode
    rw [← Tree.lineOf_of_get? hnode, ← Tree.stopOf_of_get? hnode]
    refine hspan hne ?_
    exact (Array.getElem?_eq_some_iff.mp hnode).1
  · intro id span leaf hnode
    have hleaf : whole.isBlock id = false := by
      rw [Tree.isBlock, Tree.label?_eq, hnode]
      rfl
    have hne : id ≠ Tree.root := by
      rintro rfl
      have hblock : whole.isBlock Tree.root = true :=
        (hwhole.isBlock _).trans (Sketch.isBlockAt_of_isScopeAt hregular.isScopeAt_root)
      rw [hblock] at hleaf
      contradiction
    rw [hwhole.isBlock, ← hdrawn.isBlock] at hleaf
    have hend := h.leaf id (hsize ▸ (Array.getElem?_eq_some_iff.mp hnode).1) hleaf
    rw [← hstop id hne, hline, Tree.lineOf_of_get? hnode, Tree.stopOf_of_get? hnode] at hend
    exact hend
  · intro parent child hchild
    obtain ⟨_, hin, hchildNe⟩ := hedge hchild
    by_cases hne : parent = Tree.root
    · rw [hne, hfirst, hroot]
      exact ⟨Nat.zero_le _, (hspan hchildNe hin).2⟩
    · refine ⟨Nat.le_of_lt (hbehind hne hchild), ?_⟩
      rw [hstop child hchildNe, hstop parent hne]
      exact (h.inside parent hne (hopened ▸ List.not_mem_nil) child (hchildren ▸ hchild)).2
  · intro parent child hne hchild
    exact hbehind hne hchild
  · intro id
    rw [hchildren]
    refine (h.siblings id).imp_of_mem ?_
    rintro child next hchild - ⟨-, hle⟩
    rw [hstop child (hedge (hchildren ▸ hchild)).2.2, ← hline]
    exact hle
  · rw [hscopes]
    refine h.sections.imp_of_mem_imp ?_
    rintro id next hid - ⟨-, heq⟩
    rw [hstop id (hedge (hchildren ▸ (List.mem_filter.mp hid).1)).2.2, ← hline]
    exact heq
  · rw [hscopes]
    intro id hid
    have hchild := (List.mem_filter.mp (List.mem_of_getLast? hid)).1
    rw [hstop id (hedge (hchildren ▸ hchild)).2.2]
    exact hlast id hid

section Parse

variable {options : Options} {checker : Checker} {lines : List String} {reading : Reading}
  {script : Script} {asked : Array Query}

theorem Progress.read_eq_before (options : Options) (checker : Checker) (lines : List String) :
    read options checker lines = before options checker lines lines.length := by
  rw [before, List.take_length]

theorem Script.Settled.tiled
    (h : script.Settled checker asked reading (Progress.read options checker lines).linked)
    (hread : Reading.read options checker lines = .ok reading) :
    (Progress.read options checker lines).linked.Tiled reading.lineCount := by
  have hmatches := Progress.matches_stage hread lines.length
  have hfenced := Progress.fenced_before hread (Nat.le_refl _)
  have hcount := Reading.lineCount_stage hread (Nat.le_refl _)
  rw [Reading.stage_length hread] at hcount hmatches
  rw [← Progress.read_eq_before, ← hcount] at hfenced
  rw [← Progress.read_eq_before] at hmatches
  have hlines (id next : Nat) (hpos : 0 < id) (hlt : id < next)
      (hnext : next < (Progress.read options checker lines).linked.size) :=
    h.lineOf_lt_lineOf hread hpos hlt hnext
  generalize Progress.read options checker lines = progress at *
  obtain ⟨hclosed, hlast⟩ := hfenced.closeAll hmatches.draft
  have hdrawn := Draft.drawn_closeAll hmatches.draft.drawn reading.lineCount
  have hclosedAt (id : NodeId) : progress.linked.stopOf id =
      ((progress.draft.closeAll reading.lineCount).tree.closeEach reading.lineCount
        [Tree.root]).stopOf id := by
    rw [progress.stopOf_linked, hmatches.lineCount]
  refine hclosed.tiled rfl ?_ hdrawn h.drawn h.regular hlines ?_ fun id hne => ?_
  · have hscopes : (progress.draft.closeAll reading.lineCount).tree.scopes =
        progress.draft.tree.scopes :=
      Tree.scopes_congr (Tree.mark?_closeEach _ _ _) (Tree.children_closeEach ..)
    rw [hscopes]
    exact hlast
  · refine (hclosedAt _).trans ((Tree.stopOf_closeEach hdrawn.shaped.size_pos).trans ?_)
    exact if_pos (List.mem_singleton_self _)
  · rw [hclosedAt, Tree.stopOf_closeEach_of_not_mem]
    exact fun hmem => hne (List.mem_singleton.mp hmem)

end Parse

/-- Spans tile a script, and for every line the nodes that cover it hang on one another. -/
theorem tiled_of_ok {options : Options} {checker : Checker} {lines : List String}
    {script : Script} (h : (parseLines options checker lines).result = .ok script) :
    script.tree.Tiled script.lineCount ∧
      ∀ line, (Tree.root :: script.tree.walk.filter (script.tree.covers line)).IsChain
        fun id next => next ∈ script.tree.children id := by
  obtain ⟨reading, hread, hsettled⟩ := settled_of_ok h
  have hwhole := hsettled.tiled hread
  have hforward := hsettled.drawn.shaped.forward
  have htiled : script.tree.Tiled script.lineCount := by
    rw [hsettled.lineCount, hsettled.tree]
    refine hwhole.detach fun id hid => Bool.eq_false_iff.mpr fun hscope => ?_
    exact Review.not_mem_rejections_of_isScope hscope (List.mem_reverse.mp hid)
  refine ⟨htiled, fun line => htiled.isChain_covers_below ?_ _ line Tree.root⟩
  rw [hsettled.tree]
  exact hforward.detach _

/-- A command that goes on, a blank line at the end of a body, and two sections. -/
theorem tiled_of_extended_command :
    let lines := ["# one", "# two", "\tsaid", "", "back", "= first", "* pick", "\tso", "= last", ""]
    ∃ script, (parseLines {} .lenient lines).result = .ok script ∧
      (script.tree.Tiled script.lineCount ∧
        ∀ line, (Tree.root :: script.tree.walk.filter (script.tree.covers line)).IsChain
          fun id next => next ∈ script.tree.children id) ∧
      script.tree.walk.map (fun id => (script.tree.lineOf id, script.tree.stopOf id)) =
        [(0, 4), (2, 3), (4, 5), (5, 8), (6, 8), (7, 8), (8, 10)] ∧
      script.tree.walk.filter (script.tree.covers 7) = [4, 5, 6] := by
  intro lines
  have hparsed : (parseLines {} .lenient lines).result.toOption.map (fun script =>
      (script.tree.walk.map (fun id => (script.tree.lineOf id, script.tree.stopOf id)),
        script.tree.walk.filter (script.tree.covers 7))) =
      some ([(0, 4), (2, 3), (4, 5), (5, 8), (6, 8), (7, 8), (8, 10)], [4, 5, 6]) := by
    decide +kernel
  obtain ⟨script, hparse, hspans⟩ := exists_ok_of_map_toOption hparsed
  obtain ⟨hwalk, hchain⟩ := Prod.mk.inj hspans
  exact ⟨script, hparse, tiled_of_ok hparse, hwalk, hchain⟩

end Dialogue
