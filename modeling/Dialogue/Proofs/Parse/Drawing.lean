import Dialogue.Proofs.Parse.Growth

/-! Drafts and their sketches. What a line adds to a draft is what it adds to the sketch of
the draft, once the blocks that the line does not belong to are closed. -/
namespace Dialogue

theorem getLast?_eq_of_pairwise {ids : List Nat} {id : Nat} (h : ids.Pairwise (· < ·))
    (hmem : id ∈ ids) (hle : ∀ other ∈ ids, other ≤ id) : ids.getLast? = some id := by
  obtain ⟨before, last, rfl⟩ : ∃ before last, ids = before ++ [last] :=
    ⟨ids.dropLast, ids.getLast (List.ne_nil_of_mem hmem), (List.dropLast_concat_getLast _).symm⟩
  rw [List.getLast?_concat]
  have hlast := hle last (List.mem_append_right _ List.mem_cons_self)
  rcases List.mem_append.mp hmem with hbefore | hend
  · have hlt := (List.pairwise_append.mp h).2.2 id hbefore last List.mem_cons_self
    omega
  · rw [List.mem_singleton.mp hend]

namespace Tree.Drawn

variable {tree : Tree} {entries : List Entry} {id child : Nat}

theorem getLast?_children (h : tree.Drawn entries) (hright : Sketch.IsRightmost entries id)
    (hlevel : Sketch.levelAt entries (entries.length - 1) = Sketch.levelAt entries id + 1) :
    (tree.children id).getLast? = some (entries.length - 1) := by
  have hlt := hright.lt
  have hne : id ≠ entries.length - 1 := by
    rintro rfl
    omega
  have hparent : IsParent (Sketch.levelAt entries) id (entries.length - 1) := by
    refine ⟨by omega, hlevel, fun node hlo hhi => ?_⟩
    have hbelow := hright.level_lt node hlo (by omega)
    omega
  refine getLast?_eq_of_pairwise (h.shaped.sorted id) ?_ fun other hother => ?_
  · refine (h.shaped.mem_children_iff id _).mpr ⟨?_, hparent⟩
    rw [h.size_eq]
    omega
  · have hin := ((h.shaped.mem_children_iff id other).mp hother).1
    rw [h.size_eq] at hin
    omega

theorem eq_last_of_childless (h : tree.Drawn entries) (hright : Sketch.IsRightmost entries id)
    (hlast : (tree.children id).getLast? = some child) (hchildless : tree.children child = []) :
    child = entries.length - 1 ∧
      Sketch.levelAt entries child = Sketch.levelAt entries id + 1 := by
  have hmem := List.mem_of_getLast? hlast
  obtain ⟨hin, hparent⟩ := (h.shaped.mem_children_iff id child).mp hmem
  have hlevel := hparent.level_eq
  have hbehind := hparent.lt
  rw [h.size_eq] at hin
  refine ⟨?_, hlevel⟩
  refine Nat.le_antisymm (by omega) (Nat.le_of_not_lt fun hmore => ?_)
  have hnext : child + 1 < entries.length := by omega
  have hstep := h.shaped.level_le (child + 1) (by omega) (h.size_eq ▸ hnext)
  have hbelow := hright.level_lt (child + 1) (by omega) hnext
  rw [Nat.add_sub_cancel] at hstep
  by_cases hdeep : Sketch.levelAt entries (child + 1) = Sketch.levelAt entries child + 1
  · have hchild : child + 1 ∈ tree.children child := by
      refine (h.shaped.mem_children_iff _ _).mpr ⟨h.size_eq ▸ hnext, by omega, hdeep, ?_⟩
      intro node hlo hhi
      omega
    rw [hchildless] at hchild
    exact List.not_mem_nil hchild
  · have hsibling : child + 1 ∈ tree.children id := by
      refine (h.shaped.mem_children_iff _ _).mpr ⟨h.size_eq ▸ hnext, by omega, by omega, ?_⟩
      intro node hlo hhi
      have hnode := hright.level_lt node hlo (by omega)
      omega
    obtain ⟨before, hbefore⟩ := List.getLast?_eq_some_iff.mp hlast
    have hsorted := h.shaped.sorted id
    rw [hbefore] at hsorted hsibling
    rcases List.mem_append.mp hsibling with hearly | hlate
    · have hlt := (List.pairwise_append.mp hsorted).2.2 _ hearly child List.mem_cons_self
      exact Nat.lt_asymm hlt (Nat.lt_succ_self child)
    · have heq := List.mem_singleton.mp hlate
      omega

private theorem isBareCommand_iff (h : tree.Drawn entries) :
    (tree.get? id).any Node.isBareCommand = true ↔
      entries[id]?.any Entry.isCommand = true ∧ tree.children id = [] := by
  have hmark := h.mark? id
  unfold Tree.mark? at hmark
  rw [children_eq]
  cases hnode : tree.get? id with
  | none =>
    rw [hnode, Option.map_none] at hmark
    have hnone : entries[id]? = none := Option.map_eq_none_iff.mp hmark.symm
    simp [hnone]
  | some node =>
    rw [hnode, Option.map_some] at hmark
    obtain ⟨⟨level, mark⟩, hentry, rfl⟩ := Option.map_eq_some_iff.mp hmark.symm
    obtain ⟨span, content⟩ := node
    rw [hentry]
    cases content with
    | leaf => simp [Node.isBareCommand, Entry.isCommand, Node.mark, Content.bare]
    | block block children =>
      cases block with
      | scope => simp [Node.isBareCommand, Entry.isCommand, Node.mark, Content.bare]
      | choice => simp [Node.isBareCommand, Entry.isCommand, Node.mark, Content.bare]
      | command text =>
        cases children <;>
          simp [Node.isBareCommand, Entry.isCommand, Node.mark, Content.bare, Node.children,
            Content.children]

theorem extend (h : tree.Drawn entries) (id line : Nat) (text : String) :
    (tree.modify id (Node.extend line text)).Drawn (entries.modify id (Entry.extend text)) := by
  have hchildren (node : Node) : (node.extend line text).children = node.children := by
    unfold Node.extend
    split <;> rfl
  have hmark (node : Node) : (node.extend line text).mark = node.mark.extend text := by
    obtain ⟨span, content⟩ := node
    cases content with
    | leaf => rfl
    | block block => cases block <;> rfl
  refine ⟨?_, ?_, fun other => ?_⟩
  · rw [size_modify, List.length_modify]
    exact h.size_eq
  · refine h.shaped.congr (size_modify ..) (fun other => children_modify hchildren) ?_
    exact fun other _ => Sketch.levelAt_extend ..
  · have hold := h.mark? other
    unfold Tree.mark? at hold ⊢
    rw [get?_modify, Sketch.getElem?_extend]
    split
    · have hextended : ((tree.get? other).map (Node.extend line text)).map Node.mark =
          ((tree.get? other).map Node.mark).map (Mark.extend text) := by
        rw [Option.map_map, Option.map_map]
        exact congrArg (Option.map · _) (funext hmark)
      rw [hextended, hold, Option.map_map, Option.map_map]
      rfl
    · exact hold

theorem mem_children_root (h : tree.Drawn entries) (hregular : Sketch.Regular entries)
    (hne : id ≠ root) (hscope : Sketch.isScopeAt entries id = true) : id ∈ tree.children root := by
  have hpos := Nat.pos_of_ne_zero hne
  have hid := Sketch.lt_length_of_isBlockAt (Sketch.isBlockAt_of_isScopeAt hscope)
  rw [← h.size_eq] at hid
  have hlevel := hregular.section_level id hpos hscope
  refine (h.shaped.mem_children_iff _ id).mpr ⟨hid, hpos, ?_, fun node hlo hhi => ?_⟩
  · rw [hlevel, h.shaped.level_root]
  · rw [hlevel]
    exact h.shaped.level_pos node hlo (Nat.lt_trans hhi hid)

end Tree.Drawn

namespace Draft

variable {draft : Draft} {entries : List Entry} {depth : Nat}

/-- Which command a command line goes on with can be told from the sketch. -/
theorem extensible?_eq (hdrawn : draft.tree.Drawn entries)
    (hright : Sketch.IsRightmost entries draft.innermost) :
    draft.extensible? =
      Sketch.extensible? entries (Sketch.levelAt entries draft.innermost + 1) := by
  refine Option.ext fun (id : Nat) => ?_
  have hlt := hright.lt
  rw [extensible?, Option.filter_eq_some_iff, Sketch.extensible?_eq_some_iff,
    hdrawn.isBareCommand_iff]
  constructor
  · rintro ⟨hlast, hcommand, hchildless⟩
    obtain ⟨rfl, hlevel⟩ := hdrawn.eq_last_of_childless hright hlast hchildless
    obtain ⟨entry, hentry, hcommand⟩ := (Option.any_eq_true _ _).mp hcommand
    rw [Sketch.levelAt, hentry] at hlevel
    exact ⟨by omega, entry, hentry, hcommand, hlevel⟩
  · rintro ⟨hlast, entry, hentry, hcommand, hlevel⟩
    obtain rfl : id = entries.length - 1 := by omega
    have hsame : Sketch.levelAt entries (entries.length - 1) = entry.level := by
      rw [Sketch.levelAt, hentry]
      rfl
    refine ⟨hdrawn.getLast?_children hright (hsame.trans hlevel), ?_, ?_⟩
    · rw [hentry, Option.any_some, hcommand]
    · refine List.eq_nil_iff_forall_not_mem.mpr fun child hchild => ?_
      obtain ⟨hin, hparent⟩ := (hdrawn.shaped.mem_children_iff _ child).mp hchild
      have hbehind := hparent.lt
      rw [hdrawn.size_eq] at hin
      omega

structure Matches (draft : Draft) (entries : List Entry) : Prop where
  drawn : draft.tree.Drawn entries
  branch : Sketch.Branch entries draft.opened
  regular : Sketch.Regular entries
  names : draft.tree.names = Sketch.names entries
  untargeted : ∀ id, draft.tree.target? id = none

theorem matches_empty : Draft.empty.Matches [Entry.root] := by
  have hchildren (id : Nat) : Draft.empty.tree.children id = [] := by
    cases id <;> rfl
  have hscope (id : Nat) (h : Sketch.isScopeAt [Entry.root] id = true) : id ≤ 0 :=
    Nat.le_of_lt_succ (Sketch.lt_length_of_isBlockAt (Sketch.isBlockAt_of_isScopeAt h))
  refine ⟨⟨rfl, ⟨Nat.one_pos, rfl, ?_, ?_, fun id => ?_, fun parent child => ?_⟩, fun id => ?_⟩,
    .scope rfl hscope ⟨Nat.one_pos, ?_⟩, ⟨rfl, ?_, ?_, ?_⟩, rfl, fun id => ?_⟩
  · intro id hpos hlt
    exact absurd hlt (Nat.not_lt.mpr hpos)
  · intro id hpos hlt
    exact absurd hlt (Nat.not_lt.mpr hpos)
  · rw [hchildren]
    exact .nil
  · rw [hchildren]
    refine iff_of_false List.not_mem_nil fun ⟨hlt, hparent⟩ => ?_
    exact absurd hlt (Nat.not_lt.mpr (Nat.zero_lt_of_lt hparent.lt))
  · cases id <;> rfl
  · intro later hpos hlt
    exact absurd hlt (Nat.not_lt.mpr hpos)
  · intro id hpos hid
    exact absurd (hscope id hid) (Nat.not_le.mpr hpos)
  · intro id hpos hid
    exact absurd (hscope id hid) (Nat.not_le.mpr hpos)
  · intro id later hpos hid
    exact absurd (hscope id hid) (Nat.not_le.mpr hpos)
  · cases id <;> rfl

namespace Matches

theorem exists_opened (h : draft.Matches entries) :
    ∃ below, draft.opened = draft.innermost :: below := by
  have hne := h.branch.ne_nil
  unfold innermost
  cases hopened : draft.opened with
  | nil => exact absurd hopened hne
  | cons id below => exact ⟨below, rfl⟩

theorem branch_cons (h : draft.Matches entries) :
    ∃ below, draft.opened = draft.innermost :: below ∧
      Sketch.Branch entries (draft.innermost :: below) := by
  obtain ⟨below, hopened⟩ := h.exists_opened
  exact ⟨below, hopened, hopened ▸ h.branch⟩

theorem isRightmost (h : draft.Matches entries) :
    Sketch.IsRightmost entries draft.innermost := by
  obtain ⟨_, _, hbranch⟩ := h.branch_cons
  exact hbranch.isRightmost_head

theorem levelAt_innermost (h : draft.Matches entries) :
    Sketch.levelAt entries draft.innermost + 1 = Sketch.ground entries + draft.opened.length := by
  obtain ⟨below, hopened, hbranch⟩ := h.branch_cons
  rw [hbranch.levelAt_head h.regular, hopened, List.length_cons]
  omega

theorem drawn_push (h : draft.Matches entries) {node : Node} (hnode : node.children = [])
    (hdepth : draft.opened.length = depth) :
    (draft.tree.push draft.innermost node).Drawn
      (entries ++ [⟨Sketch.ground entries + depth, node.mark⟩]) := by
  obtain ⟨_, _, hbranch⟩ := h.branch_cons
  have hlevel := h.levelAt_innermost
  have hpushed := h.drawn.push hbranch.isBlockAt_head h.isRightmost hnode
  rwa [hlevel, hdepth] at hpushed

theorem regular_push (h : draft.Matches entries) {mark : Mark}
    (hscope : mark.label.isScope = false) (hdepth : draft.opened.length = depth) :
    Sketch.Regular (entries ++ [⟨Sketch.ground entries + depth, mark⟩]) := by
  have hpos := List.length_pos_iff.mpr h.branch.ne_nil
  exact h.regular.append (by show _ < _ + _; omega) hscope

theorem untargeted_push (h : draft.Matches entries) {node : Node}
    (hnode : node.content.target? = none) (parent id : NodeId) :
    (draft.tree.push parent node).target? id = none := by
  rw [Tree.target?_push, h.untargeted, hnode, ite_self]

private theorem addLeaf (h : draft.Matches entries) (hdepth : draft.opened.length = depth)
    (number column : Nat) {leaf : Leaf} (hleaf : (Content.leaf leaf).target? = none) :
    (draft.addLeaf (.single number column) leaf).Matches
      (entries ++ [⟨Sketch.ground entries + depth, number, column, .leaf leaf.unaimed⟩]) := by
  obtain ⟨below, hopened, hbranch⟩ := h.branch_cons
  have hlevel := h.levelAt_innermost
  refine ⟨h.drawn_push rfl hdepth, ?_, h.regular_push rfl hdepth, ?_, h.untargeted_push hleaf _⟩
  · show Sketch.Branch _ draft.opened
    rw [hopened]
    exact hbranch.append (by show _ < _ + _; omega) rfl
  · rw [Sketch.names_append_of_key?_eq_none rfl]
    exact h.names

private theorem addBlock (h : draft.Matches entries) (hdepth : draft.opened.length = depth)
    (number column : Nat) {block : Block} (hscope : block.isScope = false) :
    (draft.addBlock (.single number column) block).Matches
      (entries ++ [⟨Sketch.ground entries + depth, number, column, .block block []⟩]) := by
  obtain ⟨below, hopened, hbranch⟩ := h.branch_cons
  have hlevel := h.levelAt_innermost
  refine ⟨h.drawn_push rfl hdepth, ?_, h.regular_push hscope hdepth, ?_, h.untargeted_push rfl _⟩
  · show Sketch.Branch _ (draft.tree.size :: draft.opened)
    rw [hopened, h.drawn.size_eq]
    exact hbranch.appendBlock (by show _ + _ = _; omega) rfl hscope
  · have hkey : (⟨Sketch.ground entries + depth, number, column, .block block []⟩ : Entry).key? =
        none := Entry.key?_eq_none hscope
    rw [Sketch.names_append_of_key?_eq_none hkey]
    exact h.names

private theorem addScope (h : draft.Matches entries) (number column : Nat) (key : String) :
    (draft.addScope (.single number column) key).tree.Drawn
        (entries ++ [⟨1, number, column, .block (.scope (some key)) []⟩]) ∧
      (draft.addScope (.single number column) key).opened = [entries.length] ∧
      (draft.addScope (.single number column) key).tree.names = draft.tree.names ∧
      ∀ id, (draft.addScope (.single number column) key).tree.target? id = none := by
  have hdrawn := drawn_closeAll h.drawn (Span.single number column).line
  have hroot : Sketch.levelAt entries Tree.root = 0 := h.regular.levelAt_root
  have hright : Sketch.IsRightmost entries Tree.root := by
    refine ⟨h.regular.length_pos, fun later hlo hhi => ?_⟩
    rw [hroot]
    exact h.drawn.shaped.level_pos later hlo (h.drawn.size_eq ▸ hhi)
  have hpushed := hdrawn.push (Sketch.isBlockAt_of_isScopeAt h.regular.isScopeAt_root) hright
    (show (⟨Span.single number column, .block (.scope (some key)) []⟩ : Node).children = [] from rfl)
  rw [h.regular.levelAt_root] at hpushed
  refine ⟨hpushed, ?_, names_closeAll .., fun id => ?_⟩
  case refine_2 =>
    refine (Tree.target?_push ..).trans ?_
    rw [target?_closeAll, h.untargeted, ite_eq_right_iff]
    exact fun _ => rfl
  show [(draft.closeAll number).tree.size] = [entries.length]
  rw [(drawn_closeAll h.drawn number).size_eq]

theorem openScope (h : draft.Matches entries) (number column : Nat) (key : String)
    {declared : Bool} (hdeclared : declared = ((Sketch.names entries).lookup key).isNone) :
    (draft.grow number (.scope column key declared)).Matches
        (entries ++ [⟨1, number, column, .block (.scope (some key)) []⟩]) ∧
      (draft.grow number (.scope column key declared)).opened.length = 1 := by
  obtain ⟨hdrawn, hopened, hnames, huntargeted⟩ := h.addScope number column key
  generalize hscope : draft.addScope (.single number column) key = opened at *
  have hgrow : draft.grow number (.scope column key declared) =
      if declared then { opened with tree := opened.tree.declare key opened.innermost }
      else opened := by
    rw [← hscope]
    rfl
  have hbranch : Sketch.Branch
      (entries ++ [⟨1, number, column, .block (.scope (some key)) []⟩]) [entries.length] :=
    .appendScope rfl
  have hlonger : Sketch.names (entries ++ [⟨1, number, column, .block (.scope (some key)) []⟩]) =
      if declared then draft.tree.names ++ [(key, entries.length)] else draft.tree.names := by
    rw [Sketch.names_append, h.names, hdeclared]
    rfl
  rw [hgrow]
  cases declared with
  | false =>
    exact ⟨⟨hdrawn, hopened ▸ hbranch, h.regular.appendScope, hnames.trans hlonger.symm,
      huntargeted⟩, congrArg List.length hopened⟩
  | true =>
    refine ⟨⟨hdrawn.declare .., ?_, h.regular.appendScope, ?_, huntargeted⟩,
      congrArg List.length hopened⟩
    · show Sketch.Branch _ opened.opened
      exact hopened ▸ hbranch
    · show opened.tree.names ++ [(key, opened.innermost)] = _
      rw [hlonger, hnames, innermost, hopened]
      rfl

theorem extend (h : draft.Matches entries) {id : Nat} (number : Nat) (text : String)
    (hid : Sketch.extensible? entries (Sketch.levelAt entries draft.innermost + 1) = some id) :
    (draft.extend id number text).Matches (entries.modify id (Entry.extend text)) := by
  obtain ⟨below, hopened, hbranch⟩ := h.branch_cons
  obtain ⟨hlast, entry, hentry, hcommand, hlevel⟩ := Sketch.extensible?_eq_some_iff.mp hid
  obtain ⟨hblock, hscope⟩ := Entry.isBlock_of_isCommand hcommand
  have hlabel : Sketch.labelAt? entries id = some entry.mark.label := by
    rw [Sketch.labelAt?, hentry]
    rfl
  have hsame : Sketch.levelAt entries id = Sketch.levelAt entries draft.innermost + 1 := by
    rw [Sketch.levelAt, hentry]
    exact hlevel
  have hreopened : Sketch.Branch entries (id :: draft.innermost :: below) := by
    refine .block ?_ ?_ ⟨by omega, fun later hlo hhi => by omega⟩ hsame hbranch
    · rw [Sketch.isBlockAt, hlabel]
      exact hblock
    · rw [Sketch.isScopeAt, hlabel]
      exact hscope
  have htarget (node : Node) : (node.extend number text).content.target? = node.content.target? := by
    unfold Node.extend
    split <;> rfl
  refine ⟨h.drawn.extend id number text, ?_, h.regular.extend id text, ?_, fun other => ?_⟩
  · show Sketch.Branch _ (id :: draft.opened)
    rw [hopened]
    exact hreopened.congr (List.length_modify ..) (Sketch.levelAt_extend entries id text)
      (Sketch.isBlockAt_extend entries id text) (Sketch.isScopeAt_extend entries id text)
  · rw [Sketch.names_extend]
    exact h.names
  · exact (Tree.target?_modify htarget).trans (h.untargeted other)

/-- What a line adds to a draft is what it adds to the sketch. -/
theorem grow (h : draft.Matches entries) (hdepth : draft.opened.length = depth) (number : Nat)
    {growth : Growth} (hfits : growth.Fits (Sketch.names entries)) :
    (draft.grow number growth).Matches (Sketch.grow entries depth number growth) ∧
      (draft.grow number growth).opened.length = growth.room depth := by
  cases growth with
  | nothing => exact ⟨h, hdepth⟩
  | leaf column leaf =>
    exact ⟨h.addLeaf hdepth number column hfits, hdepth⟩
  | choice column text condition =>
    exact ⟨h.addBlock hdepth number column rfl, congrArg (· + 1) hdepth⟩
  | scope column key declared =>
    exact h.openScope number column key hfits
  | command column text =>
    have hextensible := extensible?_eq h.drawn h.isRightmost
    have hlevel := h.levelAt_innermost
    rw [hlevel, hdepth] at hextensible
    simp only [Draft.grow, Sketch.grow, hextensible]
    cases hid : Sketch.extensible? entries (Sketch.ground entries + depth) with
    | none => exact ⟨h.addBlock hdepth number column rfl, congrArg (· + 1) hdepth⟩
    | some id =>
      refine ⟨h.extend number text ?_, congrArg (· + 1) hdepth⟩
      rwa [hlevel, hdepth]

end Matches

end Draft
end Dialogue
