import Dialogue.Proofs.Parse.Pointing
import Dialogue.Proofs.Parse.Spans

/-! The index of the lines. Of all nodes that hang on the root no two start on one line, so none
is written over, and the nodes come in the order of the walk. -/
namespace Dialogue

theorem getElem?_foldl_setIfInBounds (start : NodeId → Nat) (ids : List NodeId)
    (index : Array (Option NodeId)) (line : Nat) :
    (ids.foldl (fun index id => index.setIfInBounds (start id) (some id)) index)[line]? =
      index[line]?.map fun former => (ids.reverse.find? (start · = line)).or former := by
  induction ids generalizing index with
  | nil => simp
  | cons id ids ih =>
    rw [List.foldl_cons, ih, Array.getElem?_setIfInBounds, List.reverse_cons, List.find?_append]
    by_cases hstart : start id = line
    · subst hstart
      by_cases hin : start id < index.size <;> simp [hin]
    · simp [hstart]

private theorem Tree.covers_detach (tree : Tree) (ids : List NodeId) (line : Nat) (id : NodeId) :
    (tree.detach ids).covers line id = tree.covers line id := by
  rw [covers, covers, get?_detach]
  cases tree.get? id <;> rfl

theorem Tree.Tiled.within_or_within {tree : Tree} {lineCount line : Nat} {id other : NodeId}
    (h : tree.Tiled lineCount) (hforward : tree.Forward) (hid : id ∈ tree.walk)
    (hother : other ∈ tree.walk) (hcovers : tree.covers line id = true)
    (hboth : tree.covers line other = true) : tree.Within id other ∨ tree.Within other id := by
  have hchain := h.isChain_covers_below hforward tree.size line root
  have htrans : IsTrans NodeId tree.Within := ⟨fun _ _ _ => Within.trans⟩
  have hsymm : Std.Symm fun id other => tree.Within id other ∨ tree.Within other id :=
    ⟨fun _ _ => Or.symm⟩
  have hpairwise := (hchain.imp fun id next hnext => Within.child .self hnext).pairwise
  have hwithin := hpairwise.imp fun {id next} hnext =>
    (Or.inl hnext : tree.Within id next ∨ tree.Within next id)
  refine hwithin.forall_of_forall (fun _ _ => .inl .self) ?_ ?_
  · exact List.mem_cons_of_mem root (List.mem_filter.mpr ⟨hid, hcovers⟩)
  · exact List.mem_cons_of_mem root (List.mem_filter.mpr ⟨hother, hboth⟩)

namespace Script

variable {options : Options} {checker : Checker} {lines : List String} {script : Script}
  {reading : Reading} {asked : Array Query}

theorem getElem?_lineIndex (script : Script) (line : Nat) :
    script.lineIndex[line]? = if line < script.lineCount then
      some (script.tree.walk.reverse.find? (script.tree.lineOf · = line)) else none := by
  rw [lineIndex, getElem?_foldl_setIfInBounds, Array.getElem?_replicate]
  split <;> simp

/-- A line of the script on which no node starts that hangs on the root. -/
def Vacant (script : Script) (line : Nat) : Prop := script.lineIndex[line]? = some none

structure Indexed (script : Script) (options : Options) (checker : Checker)
    (lines : List String) : Prop where
  lineCount : script.lineCount = lines.length
  size : script.lineIndex.size = script.lineCount
  slot : ∀ line id, script.lineIndex[line]? = some (some id) ↔
    id ≠ Tree.root ∧ script.tree.Within Tree.root id ∧ script.tree.lineOf id = line
  apart : ∀ id other, id ≠ Tree.root → script.tree.Within Tree.root id →
    other ≠ Tree.root → script.tree.Within Tree.root other →
    script.tree.lineOf id = script.tree.lineOf other → id = other
  walk : script.lineIndex.toList.filterMap id = script.tree.walk
  blank : ∀ line < lines.length, Line.at? lines line = none → script.Vacant line
  dropped : ∀ line, Line.at? lines line.number = some line →
    (∀ id, ¬ Progress.Creates options checker lines line id) → script.Vacant line.number
  continued : ∀ line id, Progress.Appends options checker lines line id →
    script.Vacant line.number
  cut : ∀ id < script.tree.size, ¬ script.tree.Within Tree.root id →
    ∀ line, script.tree.covers line id = true → script.Vacant line
  rejected : ∀ diagnostic ∈ script.diagnostics, ∀ rejection,
    diagnostic.cause = .rejectedCommand rejection → ∃ id text,
      script.tree.command? id = some text ∧ script.tree.lineOf id = diagnostic.line ∧
      ∀ line, script.tree.covers line id = true → script.Vacant line

theorem getElem?_lineIndex_eq_some_iff
    (hsorted : script.tree.walk.Pairwise (script.tree.lineOf · < script.tree.lineOf ·))
    (hcount : ∀ id ∈ script.tree.walk, script.tree.lineOf id < script.lineCount)
    (line : Nat) (id : NodeId) :
    script.lineIndex[line]? = some (some id) ↔
      id ∈ script.tree.walk ∧ script.tree.lineOf id = line := by
  have hnodup : (script.tree.walk.map script.tree.lineOf).Nodup :=
    List.pairwise_map.mpr (hsorted.imp Nat.ne_of_lt)
  rw [getElem?_lineIndex]
  constructor
  · intro hslot
    split at hslot
    · have hfind := Option.some.inj hslot
      refine ⟨List.mem_reverse.mp (List.mem_of_find?_eq_some hfind), ?_⟩
      simpa using List.find?_some hfind
    · contradiction
  · rintro ⟨hid, rfl⟩
    rw [if_pos (hcount id hid)]
    cases hfind : script.tree.walk.reverse.find? (script.tree.lineOf · = script.tree.lineOf id) with
    | none =>
      have hnone := List.find?_eq_none.mp hfind id (List.mem_reverse.mpr hid)
      simp at hnone
    | some other =>
      have hother := List.mem_reverse.mp (List.mem_of_find?_eq_some hfind)
      have hline : script.tree.lineOf other = script.tree.lineOf id := by
        simpa using List.find?_some hfind
      rw [List.inj_on_of_nodup_map hnodup hother hid hline]

theorem filterMap_lineIndex
    (hsorted : script.tree.walk.Pairwise (script.tree.lineOf · < script.tree.lineOf ·))
    (hcount : ∀ id ∈ script.tree.walk, script.tree.lineOf id < script.lineCount) :
    script.lineIndex.toList.filterMap id = script.tree.walk := by
  have hslot := getElem?_lineIndex_eq_some_iff hsorted hcount
  have htaken (id : NodeId) : some id ∈ script.lineIndex.toList ↔ id ∈ script.tree.walk := by
    rw [List.mem_iff_getElem?]
    simp only [Array.getElem?_toList, hslot]
    exact ⟨fun ⟨_, hid, _⟩ => hid, fun hid => ⟨_, hid, rfl⟩⟩
  have hordered : (script.lineIndex.toList.filterMap id).Pairwise
      (script.tree.lineOf · < script.tree.lineOf ·) := by
    refine List.pairwise_filterMap.mpr (List.pairwise_iff_getElem.mpr ?_)
    intro early late hearly hlate hlt id hid other hother
    have hat {line : Nat} (hline : line < script.lineIndex.toList.length) {node : NodeId}
        (hnode : script.lineIndex.toList[line] = some node) : script.tree.lineOf node = line := by
      refine ((hslot line node).mp ?_).2
      rw [← Array.getElem?_toList, List.getElem?_eq_getElem hline, hnode]
    rw [hat hearly hid, hat hlate hother]
    exact hlt
  exact eq_of_sorted_on script.tree.lineOf hordered hsorted fun id => by simpa using htaken id

theorem vacant_iff {line : Nat} : script.Vacant line ↔
    line < script.lineCount ∧ ∀ id ∈ script.tree.walk, script.tree.lineOf id ≠ line := by
  rw [Vacant, getElem?_lineIndex]
  split <;> simp [*]

private theorem size_lineIndex (script : Script) : script.lineIndex.size = script.lineCount := by
  unfold lineIndex
  generalize hindex : Array.replicate script.lineCount (none : Option NodeId) = index
  have hsize : index.size = script.lineCount := by simp [← hindex]
  clear hindex
  induction script.tree.walk generalizing index with
  | nil => exact hsize
  | cons id ids ih => exact ih _ (Array.size_setIfInBounds.trans hsize)

theorem Settled.exists_detach {whole : Tree} (h : script.Settled checker asked reading whole) :
    ∃ ids, Tree.root ∉ ids ∧ script.tree = whole.detach ids := by
  refine ⟨_, fun hmem => ?_, h.tree⟩
  have hroot : whole.isScope Tree.root = true :=
    (h.drawn.isScope _).trans h.regular.isScopeAt_root
  exact Review.not_mem_rejections_of_isScope hroot (List.mem_reverse.mp hmem)

/-- What is cut off covers no line on which a node starts that is left. -/
theorem Settled.vacant_of_covers {whole : Tree} (h : script.Settled checker asked reading whole)
    (hread : Reading.read options checker lines = .ok reading)
    (htiled : whole.Tiled reading.lineCount) {id line : Nat} (hid : id < whole.size)
    (hcut : ¬ script.tree.Within Tree.root id) (hcovers : script.tree.covers line id = true) :
    script.Vacant line := by
  have hshaped := h.drawn.shaped
  have hspan {id : Nat} (hne : id ≠ Tree.root) (hid : id < whole.size) :
      whole.lineOf id < whole.stopOf id ∧ whole.stopOf id ≤ reading.lineCount := by
    have hnode : whole.get? id = some whole.nodes[id] := Array.getElem?_eq_getElem hid
    rw [Tree.lineOf_of_get? hnode, Tree.stopOf_of_get? hnode]
    exact htiled.span id _ hne hnode
  have hwalk {id : Nat} (hne : id ≠ Tree.root) (hid : id < whole.size) : id ∈ whole.walk :=
    hshaped.mem_walk_iff.mpr ⟨Nat.pos_of_ne_zero hne, hid⟩
  have hne : id ≠ Tree.root := by
    rintro rfl
    exact hcut .self
  obtain ⟨ids, hroot, htree⟩ := h.exists_detach
  rw [htree, hshaped.within_root_detach_iff hroot hid] at hcut
  rw [htree, Tree.covers_detach] at hcovers
  obtain ⟨hstart, hstop⟩ := (Tree.covers_iff hid).mp hcovers
  have hcount : line < script.lineCount := by
    have hend := (hspan hne hid).2
    rw [h.lineCount]
    omega
  refine vacant_iff.mpr ⟨hcount, fun other hother hat => hcut fun top htop hwithin => ?_⟩
  -- The node that is left starts on the line, so it is within what is cut off, or above it and
  -- not behind it.
  obtain ⟨hne', hleft⟩ := ((h.walkable hread).mem_walk other).mp hother
  rw [htree] at hleft
  have hin := hleft.of_detach.lt_size hshaped
  have hout := (hshaped.within_root_detach_iff hroot hin).mp hleft top htop
  have hline : whole.lineOf other = line := by
    rw [← hat, h.pruned.lineOf, h.drawn.lineOf]
  have hself : whole.covers line other = true := by
    have hbounds := hspan hne' hin
    exact (Tree.covers_iff hin).mpr (by omega)
  rcases htiled.within_or_within hshaped.forward (hwalk hne hid) (hwalk hne' hin) hcovers hself with
    hbelow | habove
  · exact hout (hwithin.trans hbelow)
  · rcases habove.eq_or_isBelow hshaped with rfl | hlater
    · exact hout hwithin
    · have hlt := h.lineOf_lt_lineOf hread (Nat.pos_of_ne_zero hne') hlater.lt hid
      omega

end Script

theorem Progress.Appends.not_creates {options : Options} {checker : Checker}
    {lines : List String} {reading : Reading} {line : Line} {id other : NodeId}
    (happends : Appends options checker lines line id)
    (h : Reading.read options checker lines = .ok reading) :
    ¬ Creates options checker lines line other := by
  cases fate_of_at? h happends.at? with
  | dropped hsame => exact not_creates_of_length_eq h (congrArg List.length hsame)
  | starts entry hnext => exact absurd happends (not_appends_of_append h hnext)
  | appends _ _ _ _ _ _ hnext =>
    refine not_creates_of_length_eq h ?_
    rw [hnext, List.length_modify]

section Parse

variable {options : Options} {checker : Checker} {lines : List String} {script : Script}

theorem exists_command_of_rejectedCommand (h : (parseLines options checker lines).result = .ok script)
    {diagnostic : Diagnostic} (hmem : diagnostic ∈ script.diagnostics) {rejection : Rejection}
    (hcause : diagnostic.cause = .rejectedCommand rejection) : ∃ id text,
      script.tree.command? id = some text ∧ script.tree.lineOf id = diagnostic.line ∧
      ¬ script.tree.Within Tree.root id := by
  obtain ⟨reading, hread, hsettled⟩ := settled_of_ok h
  have hfound := Reading.exists_line_of_mem_diagnostics hread (Nat.le_refl _)
  rw [Reading.stage_length hread] at hfound
  rw [hsettled.diagnostics, List.append_assoc, List.mem_append, List.mem_append] at hmem
  rcases hmem with hscanned | hunknown | hrejected
  · obtain ⟨_, line, _, herror⟩ := hfound diagnostic hscanned
    cases herror with
    | error column hread =>
      obtain rfl := hcause
      contradiction
    | ignored => contradiction
  · obtain ⟨link, _, hcomplaint⟩ := List.mem_filterMap.mp hunknown
    rw [(Link.complaint?_eq_some_iff.mp hcomplaint).2] at hcause
    contradiction
  · obtain ⟨rejected, hcut, rfl⟩ := List.mem_map.mp hrejected
    obtain ⟨span, command, children, hnode, hcomplaint, _, hwithin, _⟩ :=
      hsettled.exists_cut_command hcut
    refine ⟨rejected.1, command, ?_, ?_, hwithin⟩
    · rw [Tree.command?, Tree.label?_eq, hnode]
      rfl
    · rw [hcomplaint, Tree.lineOf_of_get? hnode]

/-- The index of a script that is parsed is exact. -/
theorem indexed_of_ok (h : (parseLines options checker lines).result = .ok script) :
    script.Indexed options checker lines := by
  obtain ⟨reading, hread, hsettled⟩ := settled_of_ok h
  have hwalkable := hsettled.walkable hread
  have hpruned := hsettled.pruned
  have htiled := hsettled.tiled hread
  have hlines : script.lineCount = lines.length :=
    hsettled.lineCount.trans (Reading.lineCount_of_read hread)
  have hsorted := hwalkable.sorted.imp And.right
  have hstarts {id : NodeId} (hid : id ∈ script.tree.walk) :
      ∃ line, Line.at? lines line.number = some line ∧
        Progress.Creates options checker lines line id ∧ script.tree.lineOf id = line.number := by
    obtain ⟨hne, hwithin⟩ := (hwalkable.mem_walk id).mp hid
    rw [hsettled.tree] at hwithin
    have hin := hwithin.of_detach.lt_size hsettled.drawn.shaped
    rw [hsettled.drawn.size_eq] at hin
    obtain ⟨line, hline, hcreates, hnumber⟩ :=
      Progress.exists_creates_lineAt hread (Nat.pos_of_ne_zero hne) hin
    exact ⟨line, hline.at?, hcreates, (hpruned.lineOf id).trans hnumber⟩
  have hcount (id : NodeId) (hid : id ∈ script.tree.walk) :
      script.tree.lineOf id < script.lineCount := by
    obtain ⟨line, hat, _, hnumber⟩ := hstarts hid
    rw [hnumber, hlines]
    exact Line.lt_length_of_at? hat
  have hslot := Script.getElem?_lineIndex_eq_some_iff hsorted hcount
  have hvacant {line : Line} (hat : Line.at? lines line.number = some line)
      (hnone : ∀ id, ¬ Progress.Creates options checker lines line id) :
      script.Vacant line.number := by
    refine Script.vacant_iff.mpr ⟨hlines ▸ Line.lt_length_of_at? hat, fun id hid hline => ?_⟩
    obtain ⟨other, hother, hcreates, hnumber⟩ := hstarts hid
    rw [← hnumber, hline, hat] at hother
    exact hnone id (Option.some.inj hother ▸ hcreates)
  have hcut {id : NodeId} (hid : id < script.tree.size)
      (hcut : ¬ script.tree.Within Tree.root id) {line : Nat}
      (hcovers : script.tree.covers line id = true) : script.Vacant line := by
    rw [hsettled.tree, Tree.size_detach] at hid
    exact hsettled.vacant_of_covers hread htiled hid hcut hcovers
  constructor
  · exact hlines
  · exact script.size_lineIndex
  · intro line id
    rw [hslot, hwalkable.mem_walk, and_assoc]
  · intro id other hne hid hne' hother hsame
    have hfirst := (hslot _ id).mpr ⟨(hwalkable.mem_walk id).mpr ⟨hne, hid⟩, rfl⟩
    have hsecond := (hslot _ other).mpr ⟨(hwalkable.mem_walk other).mpr ⟨hne', hother⟩, rfl⟩
    rw [hsame, hsecond] at hfirst
    exact (Option.some.inj (Option.some.inj hfirst)).symm
  · exact Script.filterMap_lineIndex hsorted hcount
  · intro line hlt hblank
    refine Script.vacant_iff.mpr ⟨hlines ▸ hlt, fun id hid hline => ?_⟩
    obtain ⟨other, hother, _, hnumber⟩ := hstarts hid
    rw [← hnumber, hline, hblank] at hother
    contradiction
  · exact fun line => hvacant
  · intro line id happends
    exact hvacant happends.at? fun other => happends.not_creates hread
  · exact fun id hid hout line => hcut hid hout
  · intro diagnostic hmem rejection hcause
    obtain ⟨id, text, hcommand, hline, hout⟩ := exists_command_of_rejectedCommand h hmem hcause
    refine ⟨id, text, hcommand, hline, fun line => hcut ?_ hout⟩
    obtain ⟨label, hlabel, _⟩ := Option.bind_eq_some_iff.mp hcommand
    exact Tree.lt_size_of_label? hlabel

end Parse

/-- A command of two lines with a blank one between them, and a command that is rejected with its
body, in which one line is too deep. -/
theorem indexed_of_rejected_command :
    let checker : Checker := ⟨fun _ query => if query.text = "bad" then some ⟨"no"⟩ else none⟩
    let lines := ["# one", "", "# two", "said", "# bad", "\tlost", "\t\t\tdeep", "", "= kept"]
    ∃ script, (parseLines {} checker lines).result = .ok script ∧
      script.Indexed {} checker lines ∧ script.lineIndex.toList =
        [some 1, none, none, some 2, none, none, none, none, some 5] := by
  intro checker lines
  have hparsed : (parseLines {} checker lines).result.toOption.map (·.lineIndex.toList) =
      some [some 1, none, none, some 2, none, none, none, none, some 5] := by
    decide +kernel
  obtain ⟨script, hparse, hindex⟩ := exists_ok_of_map_toOption hparsed
  exact ⟨script, hparse, indexed_of_ok hparse, hindex⟩

end Dialogue
