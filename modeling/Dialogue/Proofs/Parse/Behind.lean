import Dialogue.Proofs.Parse.Feeding
import Dialogue.Proofs.Parse.Joining
import Dialogue.Proofs.Tree.Joined
import Dialogue.Proofs.Tree.Traversal

/-! Parsing behind other lines. A section closes all blocks, at the very line at which the end of
the script would have closed them; from there on a draft grows behind another one as it grows by
itself. -/
namespace Dialogue

private theorem Node.isBareCommand_moved (shift count : Nat) (node : Node) :
    (node.moved shift count).isBareCommand = node.isBareCommand := by
  obtain ⟨span, content⟩ := node
  cases content with
  | leaf => rfl
  | block block children =>
    cases block with
    | command => cases children <;> rfl
    | scope => rfl
    | choice => rfl

private theorem Node.extend_moved (shift count line : Nat) (text : String) (node : Node) :
    (node.moved shift count).extend (count + line) text =
      (node.extend line text).moved shift count := by
  obtain ⟨span, content⟩ := node
  cases content with
  | leaf => rfl
  | block block children => cases block <;> rfl

theorem Tree.closeEach_append (tree : Tree) (line : Nat) (ids more : List NodeId) :
    (tree.closeEach line ids).closeEach line more = tree.closeEach line (ids ++ more) :=
  List.foldl_append.symm

namespace Draft

/-- A draft that goes on behind a tree as another one goes on by itself. -/
structure Joins (shift count : Nat) (front : Tree) (back whole : Draft) : Prop where
  tree : Tree.Joins shift count front back.tree whole.tree
  opened : whole.opened = back.opened.map (shift + ·)
  pos : ∀ id ∈ back.opened, 0 < id
  ne_nil : back.opened ≠ []

namespace Joins

variable {shift count line depth number column : Nat} {front : Tree} {back whole : Draft}
  {entries : List Entry} {growth : Growth} {key : String} {declared : Bool}

theorem innermost (h : Joins shift count front back whole) :
    0 < back.innermost ∧ whole.innermost = shift + back.innermost := by
  obtain ⟨id, below, hopened⟩ := List.exists_cons_of_ne_nil h.ne_nil
  have hpos := h.pos id (hopened ▸ List.mem_cons_self)
  rw [Draft.innermost, Draft.innermost, h.opened, hopened]
  exact ⟨hpos, rfl⟩

private theorem shut (h : Joins shift count front back whole) (hdepth : 0 < depth) :
    Joins shift count front (back.shut depth line) (whole.shut depth (count + line)) := by
  have hpos := List.length_pos_iff.mpr h.ne_nil
  rw [Draft.shut, Draft.shut, h.opened, List.length_map, ← List.map_take, ← List.map_drop]
  refine ⟨h.tree.closeEach fun id hid => h.pos id (List.mem_of_mem_take hid), rfl,
    fun id hid => h.pos id (List.mem_of_mem_drop hid), ?_⟩
  exact List.ne_nil_of_length_pos (by rw [List.length_drop]; omega)

theorem extensible? (h : Joins shift count front back whole) (hforward : back.tree.Forward) :
    whole.extensible? = back.extensible?.map (shift + ·) := by
  obtain ⟨hpos, hinner⟩ := h.innermost
  rw [Draft.extensible?, Draft.extensible?, hinner, h.tree.children hpos, List.getLast?_map]
  cases hlast : (back.tree.children back.innermost).getLast? with
  | none => rfl
  | some last =>
    have hchild := (hforward _ last (List.mem_of_getLast? hlast)).1
    have hnode := h.tree.get?_back last (Nat.zero_lt_of_lt hchild)
    have hsame : (whole.tree.get? (shift + last)).any Node.isBareCommand =
        (back.tree.get? last).any Node.isBareCommand := by
      rw [hnode, Option.any_map]
      exact congrArg (Option.any · _) (funext (Node.isBareCommand_moved shift count))
    rw [Option.map_some, Option.filter_some, Option.filter_some, hsame]
    split <;> rfl

private theorem addLeaf (h : Joins shift count front back whole) (leaf : Leaf) :
    Joins shift count front (back.addLeaf (.single number column) leaf)
      (whole.addLeaf (.single (count + number) column) leaf) := by
  obtain ⟨hpos, hinner⟩ := h.innermost
  refine ⟨?_, h.opened, h.pos, h.ne_nil⟩
  rw [Draft.addLeaf, Draft.addLeaf, hinner]
  exact h.tree.push hpos ⟨.single number column, .leaf leaf⟩

private theorem addBlock (h : Joins shift count front back whole) (block : Block) :
    Joins shift count front (back.addBlock (.single number column) block)
      (whole.addBlock (.single (count + number) column) block) := by
  obtain ⟨hpos, hinner⟩ := h.innermost
  refine ⟨?_, ?_, List.forall_mem_cons.mpr ⟨h.tree.size_back, h.pos⟩, ?_⟩
  · rw [Draft.addBlock, Draft.addBlock, hinner]
    exact h.tree.push hpos ⟨.single number column, .block block []⟩
  · show whole.tree.size :: whole.opened = _
    rw [h.tree.size_whole, h.opened]
    rfl
  · exact List.cons_ne_nil back.tree.size back.opened

private theorem extend (h : Joins shift count front back whole) {id : Nat} (hid : 0 < id)
    (text : String) :
    Joins shift count front (back.extend id number text)
      (whole.extend (shift + id) (count + number) text) := by
  refine ⟨?_, ?_, List.forall_mem_cons.mpr ⟨hid, h.pos⟩, List.cons_ne_nil id back.opened⟩
  · exact h.tree.modify hid (Node.extend_moved shift count number text)
  · show (shift + id) :: whole.opened = _
    rw [h.opened]
    rfl

theorem scope
    (h : Tree.Joins shift count front (back.closeAll number).tree
      (whole.closeAll (count + number)).tree)
    (hback : back.tree.isBlock Tree.root = true) (hwhole : whole.tree.isBlock Tree.root = true) :
    Joins shift count front (back.grow number (.scope column key declared))
      (whole.grow (count + number) (.scope column key declared)) := by
  have hblock {draft : Draft} {line : Nat} (hroot : draft.tree.isBlock Tree.root = true) :
      (draft.closeAll line).tree.isBlock Tree.root = true :=
    (Tree.isBlock_congr (Tree.mark?_closeEach ..)).trans hroot
  have hnode : (⟨.single number column, .block (.scope (some key)) []⟩ : Node).children = [] := rfl
  have hpushed := h.pushRoot (hblock hback) (hblock hwhole) hnode
  have hopened : (whole.closeAll (count + number)).tree.size =
      shift + (back.closeAll number).tree.size := h.size_whole
  have hpos (id : Nat) (hid : id ∈ [(back.closeAll number).tree.size]) : 0 < id :=
    List.mem_singleton.mp hid ▸ h.size_back
  cases declared with
  | false =>
    exact ⟨hpushed, congrArg (fun id => [id]) hopened, hpos, List.cons_ne_nil _ []⟩
  | true =>
    exact ⟨hpushed.declare .., congrArg (fun id => [id]) hopened, hpos, List.cons_ne_nil _ []⟩

theorem grow (h : Joins shift count front back whole) (hback : back.Matches entries)
    (hwhole : whole.tree.isBlock Tree.root = true) (number : Nat) (growth : Growth) :
    Joins shift count front (back.grow number growth) (whole.grow (count + number) growth) := by
  cases growth with
  | nothing => exact h
  | leaf column leaf => exact h.addLeaf leaf
  | choice column text condition => exact h.addBlock (.choice text condition)
  | scope column key declared =>
    refine scope ?_ ?_ hwhole
    · rw [tree_closeAll, tree_closeAll, h.opened]
      exact h.tree.closeEach h.pos
    · rw [hback.drawn.isBlock]
      exact Sketch.isBlockAt_of_isScopeAt hback.regular.isScopeAt_root
  | command column text =>
    have hforward := hback.drawn.shaped.forward
    simp only [Draft.grow, h.extensible? hforward]
    cases hid : back.extensible? with
    | none => exact h.addBlock (.command text)
    | some id =>
      have hchild := List.mem_of_getLast? (Option.filter_eq_some_iff.mp hid).1
      exact h.extend (Nat.zero_lt_of_lt (hforward _ id hchild).1) text

theorem opening {draft : Draft} (hsize : draft.tree.size = shift + 1)
    (hroot : draft.tree.isBlock Tree.root = true) :
    Joins shift count (draft.closeAll count).tree
      ((Draft.empty.shut 1 0).grow 0 (.scope column key declared))
      ((draft.shut 1 count).grow count (.scope column key declared)) := by
  have hclosed : ((draft.shut 1 count).closeAll count).tree = (draft.closeAll count).tree := by
    rw [tree_closeAll, tree_closeAll, Draft.shut, Tree.closeEach_append, List.take_append_drop]
  have hblock : (draft.shut 1 count).tree.isBlock Tree.root = true :=
    (Tree.isBlock_congr (mark?_shut ..)).trans hroot
  have hstart : Tree.Joins shift count (draft.closeAll count).tree (Draft.empty.closeAll 0).tree
      ((draft.shut 1 count).closeAll (count + 0)).tree := by
    rw [Nat.add_zero, hclosed]
    exact .start ((Tree.size_closeEach ..).trans hsize) rfl rfl
  exact scope hstart rfl hblock

end Joins
end Draft

private theorem Tree.Joins.closeRoot {shift count first second third : Nat}
    {front back whole : Tree} (h : Tree.Joins shift count front back whole) :
    Tree.Joins shift count (front.close first Tree.root) (back.close second Tree.root)
      (whole.close third Tree.root) := by
  have hsame {tree : Tree} {line id : Nat} (hpos : 0 < id) :
      (tree.close line Tree.root).get? id = tree.get? id := by
    have hne : Tree.root ≠ id := Nat.ne_of_lt hpos
    rw [Tree.close, Tree.get?_modify, if_neg hne]
  refine ⟨?_, ?_, ?_, fun id hpos hle => ?_, fun id hpos => ?_, ?_⟩
  · rw [Tree.size_close]
    exact h.size_front
  · rw [Tree.size_close]
    exact h.size_back
  · rw [Tree.size_close, Tree.size_close]
    exact h.size_whole
  · rw [hsame hpos, hsame hpos]
    exact h.get?_front id hpos hle
  · rw [hsame (Nat.add_pos_right shift hpos), hsame hpos]
    exact h.get?_back id hpos
  · rw [Tree.children_close, Tree.children_close, Tree.children_close]
    exact h.children_root

namespace Progress

variable {options : Options} {checker : Checker} {progress alone behind : Progress}
  {reading front back after : Reading} {text : String} {line : Line}

theorem Matches.draft_feed_of_fits (h : progress.Matches reading)
    (hline : Line.read? reading.lineCount text.toList = some line)
    (hfits : line.depth ≤ reading.room)
    (hfree : ∀ key, line.declared? options = some key → key ∉ reading.keys) :
    (progress.feed options .lenient text).draft =
      (progress.draft.shut line.depth line.number).grow line.number
        (line.effect options (fun _ => none) fun _ => none).growth := by
  rw [h.draft_feed, hline, ← Reading.effect_lenient hfree]
  exact if_neg (Nat.not_lt.mpr hfits)

theorem joins_feed {tree : Tree}
    (h : Draft.Joins front.shift front.lineCount tree alone.draft behind.draft)
    (halone : alone.Matches back) (hbehind : behind.Matches (front.append back))
    (hroot : back.entries[0]? = some Entry.root) (hreads : back.Reads options text after)
    (hapart : front.Apart after) :
    Draft.Joins front.shift front.lineCount tree (alone.feed options .lenient text).draft
      (behind.feed options .lenient text).draft := by
  have hread := Reading.read?_append front back text.toList
  cases hreads with
  | blank hline =>
    rw [halone.draft_feed, hbehind.draft_feed, hread, hline]
    exact h
  | deep line hline hdeep =>
    rw [halone.draft_feed, hbehind.draft_feed, hread, hline]
    simp only [Option.map_some]
    rw [if_pos hdeep, if_pos (by exact hdeep)]
    exact h
  | fits line hline hfits hkeys =>
    rw [hline, Option.map_some] at hread
    have hmoved := Reading.free_of_apart hroot hapart hkeys
    rw [halone.draft_feed_of_fits hline hfits hkeys,
      hbehind.draft_feed_of_fits hread hfits hmoved, Line.effect_moved]
    have hpos : 0 < line.depth := Nat.lt_add_right _ Nat.one_pos
    have hshut := (halone.draft.shut hpos (halone.room ▸ hfits) line.number).1
    refine (h.shut hpos).grow hshut ?_ line.number _
    rw [Tree.isBlock_congr (Draft.mark?_shut ..), hbehind.draft.drawn.isBlock]
    exact Sketch.isBlockAt_of_isScopeAt hbehind.draft.regular.isScopeAt_root

theorem joins_foldl (hfail : options.duplicates = .fail) {tree : Tree} {lines : List String}
    (h : Draft.Joins front.shift front.lineCount tree alone.draft behind.draft)
    (halone : alone.Matches back) (hbehind : behind.Matches (front.append back))
    (hfront : front.entries[0]? = some Entry.root) (hback : Sketch.Underway back.entries)
    (hread : lines.foldlM (Reading.feed options .lenient) back = .ok after)
    (hapart : front.Apart after) :
    Draft.Joins front.shift front.lineCount tree
      (lines.foldl (feed options .lenient) alone).draft
      (lines.foldl (feed options .lenient) behind).draft := by
  induction lines generalizing alone behind back with
  | nil => exact h
  | cons text rest ih =>
    obtain ⟨next, hnext, hrest⟩ := Reading.foldlM_cons_eq_ok_iff.mp hread
    have hreads := (Reading.feed_eq_ok_iff hfail).mp hnext
    have hfree : front.Apart next := fun key hkey hin =>
      hapart key hkey (Reading.keys_subset_of_foldlM hfail hrest hin)
    have hwhole := (Reading.feed_eq_ok_iff hfail).mpr (hreads.append hfront hback hfree)
    have hfed : (alone.feed options .lenient text).Keeps (back.feed options .lenient text) :=
      halone.feed text
    have hfollowed : (behind.feed options .lenient text).Keeps
        ((front.append back).feed options .lenient text) := hbehind.feed text
    rw [hnext] at hfed
    rw [hwhole] at hfollowed
    exact ih (joins_feed h halone hbehind hback.root hreads hfree) hfed hfollowed
      (hreads.underway hback) hrest

/-- The first section finds both drafts ready. -/
theorem joins_opening (hbehind : behind.Matches front) (hline : Line.read? 0 text.toList = some line)
    (hdepth : line.depth = 1) {key : String} (hkey : line.declared? options = some key)
    (hfree : key ∉ front.keys) :
    Draft.Joins front.shift front.lineCount (behind.draft.closeAll front.lineCount).tree
      ((({} : Progress).feed options .lenient text).draft)
      (behind.feed options .lenient text).draft := by
  have hmoved : Line.read? front.lineCount text.toList = some (line.moved front.lineCount) := by
    rw [← Nat.add_zero front.lineCount, Line.read?_add, hline]
    rfl
  have hnumber : line.number = 0 := by
    have hat : Line.at? [text] 0 = some line := hline
    exact Line.number_of_at? hat
  have hroom : 0 < front.room := by
    rw [← hbehind.room]
    exact List.length_pos_iff.mpr hbehind.draft.branch.ne_nil
  obtain ⟨column, declared, hgrowth⟩ :=
    Growth.exists_scope_of_key? ((Line.key?_growth_effect options (fun _ => none) line).trans hkey)
  have halone : (({} : Progress).feed options .lenient text).draft =
      (Draft.empty.shut 1 0).grow 0 (.scope column key declared) := by
    have hfed := matches_empty.draft_feed_of_fits hline (Nat.le_of_eq hdepth)
      fun (other : String) (_ : line.declared? options = some other) => List.not_mem_nil
    rwa [hdepth, hnumber, hgrowth] at hfed
  have hfollowed : (behind.feed options .lenient text).draft =
      (behind.draft.shut 1 front.lineCount).grow front.lineCount (.scope column key declared) := by
    have hfed := hbehind.draft_feed_of_fits hmoved (hdepth ▸ hroom) fun other hother =>
      Option.some.inj (hkey.symm.trans hother) ▸ hfree
    rw [Line.effect_moved] at hfed
    rwa [Line.number_moved, Line.depth_moved, hdepth, hnumber, Nat.add_zero,
      show (Effect.moved _ _).growth = _ from hgrowth] at hfed
  rw [halone, hfollowed]
  refine .opening ?_ ?_
  · rw [hbehind.draft.drawn.size_eq, Reading.shift]
    have hpos := hbehind.draft.regular.length_pos
    omega
  · rw [hbehind.draft.drawn.isBlock]
    exact Sketch.isBlockAt_of_isScopeAt hbehind.draft.regular.isScopeAt_root

theorem Matches.closed_eq (h : progress.Matches reading) :
    progress.closed =
      (progress.draft.closeAll reading.lineCount).tree.close reading.lineCount Tree.root := by
  rw [closed, h.lineCount]

/-- The tree of two scripts, of which a section heads the second, is made of the trees of both. -/
theorem joins_closed (hfail : options.duplicates = .fail) {lines more : List String} {key : String}
    (hheads : line.Heads more key) (hfront : Reading.read options .lenient lines = .ok front)
    (hback : Reading.read options .lenient more = .ok back) (hapart : front.Apart back) :
    Tree.Joins front.shift front.lineCount (read options .lenient lines).closed
      (read options .lenient more).closed (read options .lenient (lines ++ more)).closed := by
  have hwhole : Reading.read options .lenient (lines ++ more) = .ok (front.append back) :=
    (Reading.read_append_iff hfail hheads).mpr ⟨front, back, hfront, hback, hapart, rfl⟩
  have hbefore := keeps_read options .lenient lines
  have halone := keeps_read options .lenient more
  have hbehind := keeps_read options .lenient (lines ++ more)
  rw [hfront] at hbefore
  rw [hback] at halone
  rw [hwhole] at hbehind
  have hjoins : Draft.Joins front.shift front.lineCount
      ((read options .lenient lines).draft.closeAll front.lineCount).tree
      (read options .lenient more).draft (read options .lenient (lines ++ more)).draft := by
    obtain ⟨text, rest, rfl, hline, hkey⟩ := hheads.exists_cons options
    have hrest := (Reading.read_opening_iff hfail hline hheads.depth).mp hback
    obtain ⟨hroot, hroom⟩ := Reading.root_of_read hfront
    have hfree : key ∉ front.keys := fun hin =>
      hapart key hin (Reading.keys_subset_of_foldlM hfail hrest
        (Reading.keys_opening hkey ▸ List.mem_singleton_self key))
    have hfirst : (({} : Progress).feed options .lenient text).Matches
        (Reading.opening options line) := by
      have hfed : (({} : Progress).feed options .lenient text).Keeps
        (({} : Reading).feed options .lenient text) := matches_empty.feed text
      rwa [Reading.feed_opening hfail hline hheads.depth] at hfed
    have hnext : ((read options .lenient lines).feed options .lenient text).Matches
        (front.append (Reading.opening options line)) := by
      have hfed : ((read options .lenient lines).feed options .lenient text).Keeps
        (front.feed options .lenient text) := hbefore.feed text
      rwa [(Reading.feed_opening_iff hfail hroom hline hheads.depth hkey).mpr ⟨hfree, rfl⟩] at hfed
    have hlines : read options .lenient (lines ++ text :: rest) =
        rest.foldl (feed options .lenient) ((read options .lenient lines).feed options .lenient text) :=
      List.foldl_append
    have hjoined := joins_foldl hfail (joins_opening hbefore hline hheads.depth hkey hfree) hfirst
      hnext hroot (Reading.underway_opening hkey) hrest hapart
    rw [hlines]
    exact hjoined
  rw [hbefore.closed_eq, halone.closed_eq, hbehind.closed_eq]
  refine Tree.Joins.closeRoot ?_
  show Tree.Joins _ _ _ _ ((read options .lenient (lines ++ more)).draft.closeAll
    (front.lineCount + back.lineCount)).tree
  rw [Draft.tree_closeAll (read options .lenient more).draft,
    Draft.tree_closeAll (read options .lenient (lines ++ more)).draft, hjoins.opened]
  exact hjoins.tree.closeEach hjoins.pos

end Progress
end Dialogue
