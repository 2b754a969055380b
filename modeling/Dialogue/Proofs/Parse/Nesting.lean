import Dialogue.Proofs.Parse.Findings
import Dialogue.Proofs.Tree.Within

/-! Nesting. The indentation of the lines alone says where a node hangs: a level goes from line
to line, what is deeper is left out, and all else hangs on what the nearest line above it that
is one level up has opened. -/
namespace Dialogue

namespace Sketch

variable {tree : Tree} {entries : List Entry} {scope id : Nat}

theorem exists_above (hdrawn : tree.Drawn entries) (hregular : Regular entries)
    (hid : id < entries.length) (hscope : isScopeAt entries scope = true)
    (hbelow : IsBelow (levelAt entries) scope id)
    (hlast : ∀ other < id, isScopeAt entries other = true → other ≤ scope) :
    ∃ above : List Nat, above.Nodup ∧ levelAt entries id = levelAt entries scope + above.length + 1 ∧
      ∀ other, other ∈ above ↔
        IsBelow (levelAt entries) other id ∧ isScopeAt entries other = false := by
  induction id using Nat.strongRecOn with
  | _ id ih =>
    obtain ⟨parent, hparent⟩ :=
      hbelow.exists_parent hdrawn.shaped.level_le (hdrawn.size_eq ▸ hid)
    have hlt := hparent.lt
    rcases hbelow.eq_or_isBelow_parent hparent with rfl | houter
    · refine ⟨[], .nil, hparent.level_eq, fun other => iff_of_false List.not_mem_nil ?_⟩
      rintro ⟨hother, hplain⟩
      rcases hother.eq_or_isBelow_parent hparent with rfl | habove
      · rw [hscope] at hplain
        contradiction
      · -- Only the root is above a section.
        have hroot : other = 0 := by
          have hlevel := hregular.section_level scope (Nat.zero_lt_of_lt habove.lt) hscope
          have hless := habove.level_lt scope habove.lt (Nat.le_refl _)
          refine Nat.eq_zero_of_not_pos fun hpos => ?_
          have hmore := hdrawn.shaped.level_pos other hpos
            (hdrawn.size_eq ▸ Nat.lt_trans habove.lt (Nat.lt_trans hlt hid))
          omega
        rw [hroot, hregular.isScopeAt_root] at hplain
        contradiction
    · obtain ⟨above, hnodup, hlength, hmem⟩ := ih parent hlt (Nat.lt_trans hlt hid) houter
        fun other hother => hlast other (Nat.lt_trans hother hlt)
      have hplain : isScopeAt entries parent = false := by
        refine Bool.eq_false_iff.mpr fun hsome => ?_
        exact Nat.not_le.mpr houter.lt (hlast parent hlt hsome)
      refine ⟨parent :: above, List.nodup_cons.mpr ⟨fun hin => ?_, hnodup⟩, ?_, fun other => ?_⟩
      · exact Nat.lt_irrefl parent ((hmem parent).mp hin).1.lt
      · rw [hparent.level_eq, hlength, List.length_cons]
        omega
      · rw [List.mem_cons, hmem]
        constructor
        · rintro (rfl | ⟨hother, hsome⟩)
          · exact ⟨hparent.isBelow, hplain⟩
          · exact ⟨hother.trans hparent.isBelow, hsome⟩
        · rintro ⟨hother, hsome⟩
          exact (hother.eq_or_isBelow_parent hparent).imp_right fun habove => ⟨habove, hsome⟩

end Sketch

namespace Progress

variable {options : Options} {checker : Checker} {lines : List String} {reading : Reading}
  {line : Line}

/-- How the level goes on from a line that is admitted. -/
structure SetsLevel (options : Options) (checker : Checker) (lines : List String) (line : Line) :
    Prop where
  declares : ∀ id, Creates options checker lines line id →
    (before options checker lines (line.number + 1)).draft.tree.isScope id = true →
    room options checker lines (line.number + 1) = 1
  opens : ∀ id, Opens options checker lines line id →
    room options checker lines (line.number + 1) = line.depth + 1
  stays : (∀ id, Creates options checker lines line id →
      (before options checker lines (line.number + 1)).draft.tree.isScope id = false) →
    (∀ id, ¬ Opens options checker lines line id) →
    room options checker lines (line.number + 1) = line.depth

theorem setsLevel_of_append (h : Reading.read options checker lines = .ok reading) {entry : Entry}
    (hnext : (Reading.stage options checker lines (line.number + 1)).entries =
      (Reading.stage options checker lines line.number).entries ++ [entry])
    (hroom : room options checker lines (line.number + 1) =
      if entry.mark.label.isScope then 1
      else if entry.mark.label.isBlock then line.depth + 1 else line.depth) :
    SetsLevel options checker lines line := by
  have hdrawn := (matches_stage h (line.number + 1)).draft.drawn
  have hscopeAt : Sketch.isScopeAt (Reading.stage options checker lines (line.number + 1)).entries
      (Reading.stage options checker lines line.number).entries.length =
        entry.mark.label.isScope := by
    rw [hnext, Sketch.isScopeAt, Sketch.labelAt?_length]
    rfl
  have hblockAt : Sketch.isBlockAt (Reading.stage options checker lines (line.number + 1)).entries
      (Reading.stage options checker lines line.number).entries.length =
        entry.mark.label.isBlock := by
    rw [hnext, Sketch.isBlockAt, Sketch.labelAt?_length]
    rfl
  have hcreated (id : NodeId) (hid : Creates options checker lines line id) :
      id = (Reading.stage options checker lines line.number).entries.length := by
    obtain ⟨hlo, hhi⟩ := (creates_iff h).mp hid
    rw [hnext, List.length_append, List.length_singleton] at hhi
    exact Nat.le_antisymm (Nat.le_of_lt_succ hhi) hlo
  have hopened (id : NodeId) (hid : Opens options checker lines line id) :
      id = (Reading.stage options checker lines line.number).entries.length := by
    obtain ⟨hblock, _, hne⟩ := (opens_iff h).mp hid
    have hlt := Sketch.lt_length_of_isBlockAt hblock
    rw [hnext, List.length_append, List.length_singleton] at hlt
    rcases Nat.lt_or_eq_of_le (Nat.le_of_lt_succ hlt) with hold | heq
    · rw [hnext, Sketch.labelAt?_append hold] at hne
      contradiction
    · exact heq
  refine ⟨fun id hid hscope => ?_, fun id hid => ?_, fun hcreates hopens => ?_⟩
  · obtain rfl := hcreated id hid
    rw [hdrawn.isScope, hscopeAt] at hscope
    rw [hroom, if_pos hscope]
  · obtain rfl := hopened id hid
    obtain ⟨hblock, hscope, _⟩ := (opens_iff h).mp hid
    rw [hblockAt] at hblock
    rw [hscopeAt] at hscope
    rw [hroom, hscope, hblock]
    rfl
  · have hnew : Creates options checker lines line
        (Reading.stage options checker lines line.number).entries.length := by
      refine (creates_iff h).mpr ⟨Nat.le_refl _, ?_⟩
      rw [hnext, List.length_append]
      exact Nat.lt_succ_self _
    have hscope := hcreates _ hnew
    rw [hdrawn.isScope, hscopeAt] at hscope
    have hblock : entry.mark.label.isBlock = false := by
      refine Bool.eq_false_iff.mpr fun hblock => ?_
      exact hopens _ (opens_of_append h hnext hblock hscope)
    rw [hroom, hscope, hblock]
    rfl

theorem setsLevel_of_extend (h : Reading.read options checker lines = .ok reading)
    (hlength : (Reading.stage options checker lines (line.number + 1)).entries.length =
      (Reading.stage options checker lines line.number).entries.length)
    (hopens : ∀ id, Opens options checker lines line id →
      room options checker lines (line.number + 1) = line.depth + 1)
    (hstays : (∀ id, ¬ Opens options checker lines line id) →
      room options checker lines (line.number + 1) = line.depth) :
    SetsLevel options checker lines line := by
  refine ⟨fun id hid _ => ?_, hopens, fun _ => hstays⟩
  obtain ⟨hlo, hhi⟩ := (creates_iff h).mp hid
  rw [hlength] at hhi
  exact absurd hhi (Nat.not_lt.mpr hlo)

/-- A section leads to the first level, what opens a block to the next one, and all else to
the level of the line. -/
theorem setsLevel_of_admits (h : Reading.read options checker lines = .ok reading)
    (hline : Admits options checker lines line) : SetsLevel options checker lines line := by
  have hlt := Line.lt_length_of_at? hline.at?
  rcases admits_cases h hlt with ⟨hnone, _⟩ | ⟨other, hother, hnumber, hnext⟩
  · exact absurd rfl (hnone line hline)
  obtain rfl : other = line := hother.eq hline hnumber
  have hentries := congrArg Reading.entries hnext
  have hroom := congrArg Reading.room hnext
  rw [← room_eq h hlt] at hroom
  simp only [Reading.absorb] at hentries hroom
  generalize ((Reading.stage options checker lines other.number).effect options checker
    other).growth = growth at hentries hroom
  cases growth with
  | nothing =>
    refine setsLevel_of_extend h (congrArg List.length hentries) (fun id hid => ?_) fun _ => hroom
    have hne := ((opens_iff h).mp hid).2.2
    rw [hentries] at hne
    contradiction
  | leaf => exact setsLevel_of_append h hentries hroom
  | choice => exact setsLevel_of_append h hentries hroom
  | scope => exact setsLevel_of_append h hentries hroom
  | command column text =>
    simp only [Sketch.grow] at hentries
    split at hentries
    next id hid =>
      refine setsLevel_of_extend h ?_ (fun _ _ => hroom) fun hnone => ?_
      · rw [hentries, List.length_modify]
      · exact absurd (opener_of_extend h hline hid hentries).opens (hnone id)
    next => exact setsLevel_of_append h hentries hroom

/-- Where a node hangs that is not a section, by the line that it comes from. -/
structure Hangs (options : Options) (checker : Checker) (lines : List String) (tree : Tree)
    (line : Line) (id : NodeId) : Prop where
  admits : Admits options checker lines line
  creates : Creates options checker lines line id
  lineOf : tree.lineOf id = line.number
  above : ∃ above : List NodeId, above.Nodup ∧ above.length = line.depth - 1 ∧
    ∀ other, other ∈ above ↔ other ≠ id ∧ tree.Within other id ∧ tree.isScope other = false
  /-- The latest section, or the root if there is none yet. -/
  shallow : line.depth = 1 → ∃ parent, (∀ other, id ∈ tree.children other ↔ other = parent) ∧
    tree.isScope parent = true ∧ parent < id ∧
    ∀ other < id, tree.isScope other = true → other ≤ parent
  /-- What the latest line opened that is less deep. -/
  deep : 1 < line.depth → ∃ parent, (∀ other, id ∈ tree.children other ↔ other = parent) ∧
    ∃ opener, Admits options checker lines opener ∧ Opens options checker lines opener parent ∧
      opener.number < line.number ∧ opener.depth + 1 = line.depth ∧
      ∀ later, Admits options checker lines later → opener.number < later.number →
        later.number < line.number → line.depth ≤ later.depth

/-- Every node that still hangs on the root after a cut hangs where its line says. -/
theorem exists_hangs (h : Reading.read options checker lines = .ok reading) {tree : Tree}
    (hdrawn : tree.Drawn reading.entries) (rejected : List NodeId) {id : NodeId}
    (hid : (tree.detach rejected).Within Tree.root id) (hne : id ≠ Tree.root)
    (hscope : (tree.detach rejected).isScope id = false) :
    ∃ line, Hangs options checker lines (tree.detach rejected) line id := by
  have hregular : Sketch.Regular reading.entries := by
    have hmatches := (matches_stage h lines.length).draft
    rw [Reading.stage_length h] at hmatches
    exact hmatches.regular
  have hshaped := hdrawn.shaped
  have hin := hid.of_detach.lt_size hshaped
  have hlt : id < reading.entries.length := hdrawn.size_eq ▸ hin
  have hscopes (other : NodeId) : (tree.detach rejected).isScope other =
      Sketch.isScopeAt reading.entries other := by
    rw [Tree.isScope_eq, Tree.label?, Tree.mark?_detach, ← Tree.label?, ← Tree.isScope_eq]
    exact hdrawn.isScope other
  rw [hscopes] at hscope
  obtain ⟨line, hline, hcreates, hstands⟩ :=
    exists_stands h (Nat.pos_of_ne_zero hne) hlt hscope
  obtain ⟨scope, hbase, hlast, hbelow, hlevel⟩ := hstands.scope
  have hkept : id ∉ rejected := by
    cases hid with
    | self => exact absurd rfl hne
    | child _ hchild =>
      rw [Tree.children_detach, List.mem_filter, decide_eq_true_eq] at hchild
      exact hchild.2
  have hchildren {parent : Nat} (hparent : IsParent (Sketch.levelAt reading.entries) parent id)
      (other : Nat) : id ∈ (tree.detach rejected).children other ↔ other = parent := by
    rw [Tree.children_detach, List.mem_filter, hshaped.mem_children_iff, decide_eq_true_eq]
    constructor
    · rintro ⟨⟨_, hother⟩, _⟩
      exact hother.eq hparent
    · rintro rfl
      exact ⟨⟨hin, hparent⟩, hkept⟩
  refine ⟨line, hline, hcreates, ?_, ?_, fun hone => ?_, fun hdeep => ?_⟩
  · rw [Tree.lineOf_eq, Tree.mark?_detach, ← Tree.lineOf_eq, hdrawn.lineOf]
    exact hstands.lineAt
  · obtain ⟨above, hnodup, hlength, hmem⟩ :=
      Sketch.exists_above hdrawn hregular hlt hbase hbelow hlast
    refine ⟨above, hnodup, by omega, fun other => ?_⟩
    rw [hmem, hscopes, hid.within_detach_iff hshaped, hshaped.within_iff hin]
    constructor
    · rintro ⟨hother, hplain⟩
      exact ⟨Nat.ne_of_lt hother.lt, .inr hother, hplain⟩
    · rintro ⟨hother, hwithin, hplain⟩
      exact ⟨hwithin.resolve_left fun heq => hother heq.symm, hplain⟩
  · obtain ⟨parent, hparent⟩ := hbelow.exists_parent hshaped.level_le hin
    have hsame : scope = parent := by
      refine (hbelow.eq_or_isBelow_parent hparent).resolve_right fun houter => ?_
      have hless := houter.level_lt parent houter.lt (Nat.le_refl _)
      have hstep := hparent.level_eq
      omega
    rw [← hsame] at hparent
    refine ⟨scope, hchildren hparent, (hscopes scope).trans hbase, hbelow.lt, ?_⟩
    intro other hother hsome
    exact hlast other hother ((hscopes other).symm.trans hsome)
  · obtain ⟨opener, parent, hadmits, hopens, hnumber, hstep, hparent, hdeeper⟩ :=
      hstands.opener hdeep
    exact ⟨parent, hchildren hparent, opener, hadmits, hopens, hnumber, hstep, hdeeper⟩

/-- What the indentation of the lines of a script comes to. The whole tree is the one before
the rejected commands are cut off. -/
structure Nesting (options : Options) (checker : Checker) (lines : List String) (whole : Tree)
    (script : Script) : Prop where
  running : ∀ i ≤ lines.length, (before options checker lines i).status = .running
  room : ∀ i ≤ lines.length,
    (before options checker lines i).draft.opened.length = room options checker lines i
  deep : ∀ line, Line.at? lines line.number = some line →
    Progress.room options checker lines line.number < line.depth →
    (before options checker lines (line.number + 1)).draft =
        (before options checker lines line.number).draft ∧
      (before options checker lines (line.number + 1)).journal.asked =
        (before options checker lines line.number).journal.asked ∧
      script.diagnostics.filter (·.line = line.number) = [⟨line.number, line.column, .tooDeep⟩]
  levels : ∀ line, Admits options checker lines line → SetsLevel options checker lines line
  causes : ∀ diagnostic ∈ script.diagnostics, diagnostic.cause ≠ .invalidDedent
  cut : ∃ rejected, script.tree = whole.detach rejected
  created : ∀ id < whole.size, id ≠ Tree.root → whole.isScope id = false →
    ∃ line, Hangs options checker lines whole line id
  left : ∀ id, script.tree.Within Tree.root id → id ≠ Tree.root →
    script.tree.isScope id = false → ∃ line, Hangs options checker lines script.tree line id

end Progress

/-- Nesting is indentation. -/
theorem nesting_of_ok {options : Options} {checker : Checker} {lines : List String}
    {script : Script} (h : (parseLines options checker lines).result = .ok script) :
    Progress.Nesting options checker lines (Progress.read options checker lines).linked script := by
  obtain ⟨reading, hread, hmatches, _, review, _, htree, _, _⟩ := exists_reading_of_ok h
  have hdrawn := (hmatches.linked (Reading.links_eq hread)).1
  constructor
  · intro i _
    exact (Progress.matches_stage hread i).running
  · intro i hi
    exact Progress.length_opened_before hread hi
  · intro line hat hdeep
    obtain ⟨hdraft, hasked⟩ := Progress.before_succ_of_deep hread hat hdeep
    exact ⟨hdraft, hasked, filter_diagnostics_of_ok h hat hdeep⟩
  · intro line hline
    exact Progress.setsLevel_of_admits hread hline
  · exact cause_ne_invalidDedent h
  · exact ⟨review.rejected, htree⟩
  · intro id hid hne hscope
    exact Progress.exists_hangs hread hdrawn [] (hdrawn.shaped.within_root hid) hne hscope
  · intro id hid hne hscope
    rw [htree] at hid hscope ⊢
    exact Progress.exists_hangs hread hdrawn review.rejected hid hne hscope

/-- Two command lines are one command with a body. A line in it is too deep, and a section is
declared although it is indented. -/
theorem nesting_of_merged_command :
    let checker : Checker := ⟨fun _ _ => none⟩
    let lines := ["= start", "# one", "# two", "\tbody", "\t\t\tdeep", "\t= end", "last"]
    ∃ script, (parseLines {} checker lines).result = .ok script ∧
      Progress.Nesting {} checker lines (Progress.read {} checker lines).linked script ∧
      script.diagnostics = [⟨4, 3, .tooDeep⟩, ⟨5, 1, .tooDeep⟩] := by
  intro checker lines
  have hparsed : (parseLines {} checker lines).result.toOption.map Script.diagnostics =
      some [⟨4, 3, .tooDeep⟩, ⟨5, 1, .tooDeep⟩] := by
    decide +kernel
  obtain ⟨script, hparse, hdiagnostics⟩ := exists_ok_of_map_toOption hparsed
  exact ⟨script, hparse, nesting_of_ok hparse, hdiagnostics⟩

end Dialogue
