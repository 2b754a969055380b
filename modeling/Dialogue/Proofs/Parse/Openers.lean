import Dialogue.Proofs.Parse.Stages

/-! Openers: the lines that opened what a line may go into. For every level of nesting that is
open there is one, and all lines after it were deeper. -/
namespace Dialogue

theorem Content.extend_ne {text first : String} {children : List NodeId} :
    (block (.command first) children).extend text ≠ block (.command first) children := by
  intro h
  have htext : first ++ "\n" ++ text = first := by
    injection h with h
    injection h
  have hlength := congrArg String.length htext
  rw [String.length_append, String.length_append] at hlength
  have hbreak : "\n".length = 1 := rfl
  omega

theorem Entry.extend_label_ne {text : String} {entry : Entry} (h : entry.isCommand = true) :
    entry.mark.label.extend text ≠ entry.mark.label := by
  unfold isCommand at h
  split at h
  · exact Content.extend_ne
  · contradiction

namespace Sketch

variable {entries : List Entry} {id depth number : Nat} {growth : Growth}

theorem ground_append {entry : Entry} (h : entry.mark.label.isScope = false) :
    ground (entries ++ [entry]) = ground entries := by
  simp [ground, Entry.key?_eq_none h]

theorem lineAt_length (entry : Entry) :
    lineAt (entries ++ [entry]) entries.length = entry.mark.line := by
  simp [lineAt]

private theorem IsRightmost.extend (h : IsRightmost entries id) (other : Nat) (text : String) :
    IsRightmost (entries.modify other (Entry.extend text)) id := by
  refine ⟨by rw [List.length_modify]; exact h.lt, fun later hlo hhi => ?_⟩
  rw [List.length_modify] at hhi
  rw [levelAt_extend, levelAt_extend]
  exact h.level_lt later hlo hhi

theorem exists_entry_of_grow (hlo : entries.length ≤ id)
    (hhi : id < (grow entries depth number growth).length)
    (hscope : isScopeAt (grow entries depth number growth) id = false) :
    ∃ entry, grow entries depth number growth = entries ++ [entry] ∧ id = entries.length ∧
      entry.level = ground entries + depth ∧ entry.mark.line = number ∧
      entry.mark.label.isScope = false := by
  have hnew {entry : Entry} (hid : id < (entries ++ [entry]).length) : id = entries.length := by
    rw [List.length_append, List.length_singleton] at hid
    omega
  cases growth with
  | nothing => exact absurd hhi (Nat.not_lt.mpr hlo)
  | leaf => exact ⟨_, rfl, hnew hhi, rfl, rfl, rfl⟩
  | choice => exact ⟨_, rfl, hnew hhi, rfl, rfl, rfl⟩
  | scope =>
    obtain rfl := hnew hhi
    rw [grow, isScopeAt, labelAt?_length] at hscope
    contradiction
  | command column text =>
    simp only [grow] at hhi hscope ⊢
    split at hhi
    · rw [List.length_modify] at hhi
      exact absurd hhi (Nat.not_lt.mpr hlo)
    · exact ⟨_, rfl, hnew hhi, rfl, rfl, rfl⟩

theorem Branch.exists_scope {opened : List Nat} (h : Branch entries opened) :
    ∃ scope, isScopeAt entries scope = true ∧
      (∀ other, isScopeAt entries other = true → other ≤ scope) ∧
      IsRightmost entries scope := by
  induction h with
  | scope hscope hlast hright => exact ⟨_, hscope, hlast, hright⟩
  | block _ _ _ _ _ ih => exact ih

end Sketch

namespace Progress

variable {options : Options} {checker : Checker} {lines : List String} {reading : Reading}
  {line : Line} {i : Nat} {id : NodeId}

theorem Admits.eq {other : Line} (h : Admits options checker lines line)
    (hother : Admits options checker lines other) (hnumber : line.number = other.number) :
    line = other := by
  have hat := h.at?
  rw [hnumber, hother.at?] at hat
  exact (Option.some.inj hat).symm

theorem creates_iff (h : Reading.read options checker lines = .ok reading) :
    Creates options checker lines line id ↔
      (Reading.stage options checker lines line.number).entries.length ≤ id ∧
      id < (Reading.stage options checker lines (line.number + 1)).entries.length := by
  have hbefore := (matches_stage h line.number).draft.drawn.size_eq
  have hafter := (matches_stage h (line.number + 1)).draft.drawn.size_eq
  rw [← hbefore, ← hafter]
  exact ⟨fun h => ⟨h.size_le, h.lt_size⟩, fun h => ⟨h.1, h.2⟩⟩

theorem opens_iff (h : Reading.read options checker lines = .ok reading) :
    Opens options checker lines line id ↔
      Sketch.isBlockAt (Reading.stage options checker lines (line.number + 1)).entries id = true ∧
      Sketch.isScopeAt (Reading.stage options checker lines (line.number + 1)).entries id = false ∧
      Sketch.labelAt? (Reading.stage options checker lines (line.number + 1)).entries id ≠
        Sketch.labelAt? (Reading.stage options checker lines line.number).entries id := by
  have hbefore := (matches_stage h line.number).draft.drawn
  have hafter := (matches_stage h (line.number + 1)).draft.drawn
  rw [← hafter.isBlock, ← hafter.isScope, ← hafter.label?, ← hbefore.label?]
  exact ⟨fun h => ⟨h.isBlock, h.isScope, h.label?_ne⟩, fun h => ⟨h.1, h.2.1, h.2.2⟩⟩

theorem admits_cases (h : Reading.read options checker lines = .ok reading)
    (hi : i < lines.length) :
    ((∀ line, Admits options checker lines line → line.number ≠ i) ∧
      ∃ found : List Diagnostic, (∀ diagnostic ∈ found, diagnostic.line = i) ∧
        Reading.stage options checker lines (i + 1) = { Reading.stage options checker lines i with
          lineCount := i + 1
          diagnostics := (Reading.stage options checker lines i).diagnostics ++ found }) ∨
    ∃ line, Admits options checker lines line ∧ line.number = i ∧
      Reading.stage options checker lines (i + 1) =
        { Reading.stage options checker lines i with lineCount := i + 1 }.absorb line
          ((Reading.stage options checker lines i).effect options checker line) := by
  have hroom := room_eq h (Nat.le_of_lt hi)
  rcases Reading.stage_cases h hi with ⟨hat, hnext⟩ | ⟨line, hat, ⟨hdeep, hnext⟩ | ⟨hfits, hnext⟩⟩
  · refine .inl ⟨fun line hadmits hnumber => ?_, ?_⟩
    · have hsome := hadmits.at?
      rw [hnumber, hat] at hsome
      contradiction
    · exact ⟨[], fun _ hmem => (nomatch hmem), hnext⟩
  · refine .inl ⟨fun other hadmits hnumber => ?_, [line.complaint line.column .tooDeep], ?_, hnext⟩
    · have hsome := hadmits.at?
      have hle := hadmits.depth_le
      rw [hnumber, hat] at hsome
      obtain rfl := Option.some.inj hsome
      rw [hnumber, hroom] at hle
      exact Nat.not_lt.mpr hle hdeep
    · intro diagnostic hmem
      rw [List.mem_singleton.mp hmem]
      exact Line.number_of_at? hat
  · obtain rfl := Line.number_of_at? hat
    exact .inr ⟨line, ⟨hat, hroom ▸ hfits⟩, rfl, hnext⟩

/-- The line and the block of a level of nesting, as they are found before line `i`. -/
structure Opener (options : Options) (checker : Checker) (lines : List String) (i depth : Nat)
    (line : Line) (id : NodeId) : Prop where
  admits : Admits options checker lines line
  opens : Opens options checker lines line id
  number_lt : line.number < i
  depth_eq : line.depth = depth
  levelAt : Sketch.levelAt (Reading.stage options checker lines i).entries id =
    Sketch.ground (Reading.stage options checker lines i).entries + depth
  rightmost : Sketch.IsRightmost (Reading.stage options checker lines i).entries id
  deeper : ∀ later, Admits options checker lines later → line.number < later.number →
    later.number < i → depth < later.depth

theorem Opener.succ {opener : Line} {depth : Nat}
    (h : Opener options checker lines line.number depth opener id)
    (hline : Admits options checker lines line) (hdepth : depth < line.depth)
    (hlevel : Sketch.levelAt (Reading.stage options checker lines (line.number + 1)).entries id =
      Sketch.ground (Reading.stage options checker lines (line.number + 1)).entries + depth)
    (hright : Sketch.IsRightmost
      (Reading.stage options checker lines (line.number + 1)).entries id) :
    Opener options checker lines (line.number + 1) depth opener id := by
  refine ⟨h.admits, h.opens, Nat.lt_succ_of_lt h.number_lt, h.depth_eq, hlevel, hright, ?_⟩
  intro later hlater hlo hhi
  rcases Nat.lt_or_eq_of_le (Nat.le_of_lt_succ hhi) with hbefore | heq
  · exact h.deeper later hlater hlo hbefore
  · rwa [hlater.eq hline heq]

theorem Opener.append {opener : Line} {depth : Nat} {entry : Entry}
    (h : Opener options checker lines line.number depth opener id)
    (hline : Admits options checker lines line) (hdepth : depth < line.depth)
    (hnext : (Reading.stage options checker lines (line.number + 1)).entries =
      (Reading.stage options checker lines line.number).entries ++ [entry])
    (hentry : entry.level =
      Sketch.ground (Reading.stage options checker lines line.number).entries + line.depth)
    (hscope : entry.mark.label.isScope = false) :
    Opener options checker lines (line.number + 1) depth opener id := by
  have hlevel := h.levelAt
  refine h.succ hline hdepth ?_ ?_
  · rw [hnext, Sketch.levelAt_append h.rightmost.lt, Sketch.ground_append hscope]
    exact hlevel
  · rw [hnext]
    exact h.rightmost.append (by omega)

theorem opens_of_append {entry : Entry} (h : Reading.read options checker lines = .ok reading)
    (hnext : (Reading.stage options checker lines (line.number + 1)).entries =
      (Reading.stage options checker lines line.number).entries ++ [entry])
    (hblock : entry.mark.label.isBlock = true) (hscope : entry.mark.label.isScope = false) :
    Opens options checker lines line
      (Reading.stage options checker lines line.number).entries.length := by
  have hnone : Sketch.labelAt? (Reading.stage options checker lines line.number).entries
      (Reading.stage options checker lines line.number).entries.length = none := by
    rw [Sketch.labelAt?, List.getElem?_eq_none (Nat.le_refl _)]
    rfl
  refine (opens_iff h).mpr ⟨?_, ?_, ?_⟩
  · rw [hnext, Sketch.isBlockAt, Sketch.labelAt?_length]
    exact hblock
  · rw [hnext, Sketch.isScopeAt, Sketch.labelAt?_length]
    exact hscope
  · rw [hnext, Sketch.labelAt?_length, hnone]
    exact Option.some_ne_none _

theorem opener_of_append {entry : Entry}
    (h : Reading.read options checker lines = .ok reading)
    (hline : Admits options checker lines line)
    (hnext : (Reading.stage options checker lines (line.number + 1)).entries =
      (Reading.stage options checker lines line.number).entries ++ [entry])
    (hentry : entry.level =
      Sketch.ground (Reading.stage options checker lines line.number).entries + line.depth)
    (hblock : entry.mark.label.isBlock = true) (hscope : entry.mark.label.isScope = false) :
    Opener options checker lines (line.number + 1) line.depth line
      (Reading.stage options checker lines line.number).entries.length := by
  refine ⟨hline, opens_of_append h hnext hblock hscope, Nat.lt_succ_self _, rfl, ?_, ?_, ?_⟩
  · rw [hnext, Sketch.levelAt_length, Sketch.ground_append hscope]
    exact hentry
  · rw [hnext]
    exact Sketch.isRightmost_length entry
  · intro later _ hlo hhi
    omega

theorem opener_of_extend {text : String} (h : Reading.read options checker lines = .ok reading)
    (hline : Admits options checker lines line)
    (hid : Sketch.extensible? (Reading.stage options checker lines line.number).entries
      (Sketch.ground (Reading.stage options checker lines line.number).entries + line.depth) =
        some id)
    (hnext : (Reading.stage options checker lines (line.number + 1)).entries =
      (Reading.stage options checker lines line.number).entries.modify id (Entry.extend text)) :
    Opener options checker lines (line.number + 1) line.depth line id := by
  obtain ⟨hlast, entry, hentry, hcommand, hlevel⟩ := Sketch.extensible?_eq_some_iff.mp hid
  obtain ⟨hblock, hscope⟩ := Entry.isBlock_of_isCommand hcommand
  have hlabel : Sketch.labelAt? (Reading.stage options checker lines line.number).entries id =
      some entry.mark.label := by
    rw [Sketch.labelAt?, hentry]
    rfl
  refine ⟨hline, (opens_iff h).mpr ⟨?_, ?_, ?_⟩, Nat.lt_succ_self _, rfl, ?_, ?_, ?_⟩
  · rw [hnext, Sketch.isBlockAt_extend, Sketch.isBlockAt, hlabel]
    exact hblock
  · rw [hnext, Sketch.isScopeAt_extend, Sketch.isScopeAt, hlabel]
    exact hscope
  · rw [hnext, Sketch.labelAt?_extend, if_pos rfl, hlabel, Option.map_some]
    exact fun heq => Entry.extend_label_ne hcommand (Option.some.inj heq)
  · rw [hnext, Sketch.levelAt_extend, Sketch.ground_extend, Sketch.levelAt, hentry]
    exact hlevel
  · rw [hnext]
    refine ⟨by rw [List.length_modify]; omega, fun later hlo hhi => ?_⟩
    rw [List.length_modify] at hhi
    omega
  · intro later _ hlo hhi
    omega

theorem exists_opener_of_append {depth : Nat} {entry : Entry}
    (h : Reading.read options checker lines = .ok reading)
    (hline : Admits options checker lines line)
    (hold : depth < line.depth →
      ∃ opener id, Opener options checker lines line.number depth opener id)
    (hdepth : depth < line.depth + 1)
    (hnext : (Reading.stage options checker lines (line.number + 1)).entries =
      (Reading.stage options checker lines line.number).entries ++ [entry])
    (hentry : entry.level =
      Sketch.ground (Reading.stage options checker lines line.number).entries + line.depth)
    (hblock : entry.mark.label.isBlock = true) (hscope : entry.mark.label.isScope = false) :
    ∃ opener id, Opener options checker lines (line.number + 1) depth opener id := by
  rcases Nat.lt_or_eq_of_le (Nat.le_of_lt_succ hdepth) with hless | rfl
  · obtain ⟨opener, id, hopener⟩ := hold hless
    exact ⟨opener, id, hopener.append hline hless hnext hentry hscope⟩
  · exact ⟨line, _, opener_of_append h hline hnext hentry hblock hscope⟩

private theorem exists_opener_of_extend {depth last : Nat} {text : String}
    (h : Reading.read options checker lines = .ok reading)
    (hline : Admits options checker lines line)
    (hold : depth < line.depth →
      ∃ opener id, Opener options checker lines line.number depth opener id)
    (hdepth : depth < line.depth + 1)
    (hlast : Sketch.extensible? (Reading.stage options checker lines line.number).entries
      (Sketch.ground (Reading.stage options checker lines line.number).entries + line.depth) =
        some last)
    (hnext : (Reading.stage options checker lines (line.number + 1)).entries =
      (Reading.stage options checker lines line.number).entries.modify last (Entry.extend text)) :
    ∃ opener id, Opener options checker lines (line.number + 1) depth opener id := by
  rcases Nat.lt_or_eq_of_le (Nat.le_of_lt_succ hdepth) with hless | rfl
  · obtain ⟨opener, id, hopener⟩ := hold hless
    refine ⟨opener, id, hopener.succ hline hless ?_ ?_⟩
    · rw [hnext, Sketch.levelAt_extend, Sketch.ground_extend]
      exact hopener.levelAt
    · rw [hnext]
      exact hopener.rightmost.extend last text
  · exact ⟨line, last, opener_of_extend h hline hlast hnext⟩

/-- Levels above the depth of a line stay open, and the line may open the next one. -/
theorem exists_opener_succ {depth : Nat} (h : Reading.read options checker lines = .ok reading)
    (hline : Admits options checker lines line)
    (hnext : Reading.stage options checker lines (line.number + 1) =
      { Reading.stage options checker lines line.number with
        lineCount := line.number + 1 }.absorb line
          ((Reading.stage options checker lines line.number).effect options checker line))
    (hold : depth < line.depth →
      ∃ opener id, Opener options checker lines line.number depth opener id)
    (hpos : 0 < depth)
    (hdepth : depth < (Reading.stage options checker lines (line.number + 1)).room) :
    ∃ opener id, Opener options checker lines (line.number + 1) depth opener id := by
  have hentries := congrArg Reading.entries hnext
  have hroom := congrArg Reading.room hnext
  rw [hroom] at hdepth
  simp only [Reading.absorb] at hentries hdepth
  generalize ((Reading.stage options checker lines line.number).effect options checker
    line).growth = growth at hentries hdepth
  cases growth with
  | nothing =>
    obtain ⟨opener, id, hopener⟩ := hold hdepth
    refine ⟨opener, id, hopener.succ hline hdepth ?_ ?_⟩
    · rw [hentries]
      exact hopener.levelAt
    · rw [hentries]
      exact hopener.rightmost
  | leaf =>
    obtain ⟨opener, id, hopener⟩ := hold hdepth
    exact ⟨opener, id, hopener.append hline hdepth hentries rfl rfl⟩
  | scope =>
    have hone : depth < 1 := hdepth
    omega
  | choice => exact exists_opener_of_append h hline hold hdepth hentries rfl rfl rfl
  | command column text =>
    simp only [Sketch.grow] at hentries
    split at hentries
    next last hlast => exact exists_opener_of_extend h hline hold hdepth hlast hentries
    next => exact exists_opener_of_append h hline hold hdepth hentries rfl rfl rfl

/-- Every level of nesting that is open has its opener. -/
theorem exists_opener (h : Reading.read options checker lines = .ok reading)
    (hi : i ≤ lines.length) {depth : Nat} (hpos : 0 < depth)
    (hdepth : depth < (Reading.stage options checker lines i).room) :
    ∃ opener id, Opener options checker lines i depth opener id := by
  induction i generalizing depth with
  | zero =>
    have hone : depth < 1 := hdepth
    omega
  | succ i ih =>
    rcases admits_cases h hi with ⟨hnone, found, _, hnext⟩ | ⟨line, hline, rfl, hnext⟩
    · -- A line that is not admitted changes no level.
      rw [hnext] at hdepth
      obtain ⟨opener, id, hopener⟩ := ih (Nat.le_of_succ_le hi) hpos hdepth
      refine ⟨opener, id, hopener.admits, hopener.opens, Nat.lt_succ_of_lt hopener.number_lt,
        hopener.depth_eq, ?_, ?_, fun later hlater hlo hhi => ?_⟩
      · rw [hnext]
        exact hopener.levelAt
      · rw [hnext]
        exact hopener.rightmost
      · have hne := hnone later hlater
        exact hopener.deeper later hlater hlo (by omega)
    · have hfits := hline.depth_le
      rw [room_eq h (Nat.le_of_succ_le hi)] at hfits
      refine exists_opener_succ h hline hnext (fun hless => ?_) hpos hdepth
      exact ih (Nat.le_of_succ_le hi) hpos (Nat.lt_of_lt_of_le hless hfits)

theorem exists_creates (h : Reading.read options checker lines = .ok reading)
    (hi : i ≤ lines.length) {id : Nat} (hpos : 0 < id)
    (hid : id < (Reading.stage options checker lines i).entries.length) :
    ∃ line, Admits options checker lines line ∧ Creates options checker lines line id := by
  induction i with
  | zero =>
    have hone : id < 1 := hid
    omega
  | succ i ih =>
    rcases Nat.lt_or_ge id (Reading.stage options checker lines i).entries.length with hold | hnew
    · exact ih (Nat.le_of_succ_le hi) hold
    · rcases admits_cases h hi with ⟨_, found, _, hnext⟩ | ⟨line, hline, rfl, hnext⟩
      · rw [hnext] at hid
        exact absurd hid (Nat.not_lt.mpr hnew)
      · exact ⟨line, hline, (creates_iff h).mpr ⟨hnew, hid⟩⟩

/-- Where a node that is not a section stands among the others: below the latest section, as
deep as its line says, and on what the opener of the level above opened. -/
structure Stands (options : Options) (checker : Checker) (lines : List String)
    (entries : List Entry) (line : Line) (id : Nat) : Prop where
  lineAt : Sketch.lineAt entries id = line.number
  scope : ∃ scope, Sketch.isScopeAt entries scope = true ∧
    (∀ other < id, Sketch.isScopeAt entries other = true → other ≤ scope) ∧
    IsBelow (Sketch.levelAt entries) scope id ∧
    Sketch.levelAt entries id = Sketch.levelAt entries scope + line.depth
  opener : 1 < line.depth → ∃ opener parent, Admits options checker lines opener ∧
    Opens options checker lines opener parent ∧ opener.number < line.number ∧
    opener.depth + 1 = line.depth ∧ IsParent (Sketch.levelAt entries) parent id ∧
    ∀ later, Admits options checker lines later → opener.number < later.number →
      later.number < line.number → line.depth ≤ later.depth

private theorem Stands.continues {entries more : List Entry}
    (h : Stands options checker lines entries line id) (hid : id < entries.length)
    (hmore : Sketch.Continues entries more) : Stands options checker lines more line id := by
  have hlevel (other : Nat) (hother : other ≤ id) :
      Sketch.levelAt more other = Sketch.levelAt entries other :=
    hmore.levelAt other (Nat.lt_of_le_of_lt hother hid)
  obtain ⟨scope, hscope, hlast, hbelow, hdepth⟩ := h.scope
  have hlt := hbelow.lt
  refine ⟨?_, ⟨scope, ?_, ?_, ?_, ?_⟩, fun hdeep => ?_⟩
  · rw [hmore.lineAt id hid]
    exact h.lineAt
  · rw [hmore.isScopeAt scope (Nat.lt_trans hlt hid)]
    exact hscope
  · intro other hother hsome
    rw [hmore.isScopeAt other (Nat.lt_trans hother hid)] at hsome
    exact hlast other hother hsome
  · refine ⟨hlt, fun node hlo hhi => ?_⟩
    rw [hlevel node hhi, hlevel scope (Nat.le_of_lt hlt)]
    exact hbelow.level_lt node hlo hhi
  · rw [hlevel id (Nat.le_refl _), hlevel scope (Nat.le_of_lt hlt)]
    exact hdepth
  · obtain ⟨opener, parent, hadmits, hopens, hnumber, hstep, hparent, hdeeper⟩ := h.opener hdeep
    exact ⟨opener, parent, hadmits, hopens, hnumber, hstep, (IsParent.congr hlevel).mpr hparent,
      hdeeper⟩

theorem stands_of_creates (h : Reading.read options checker lines = .ok reading)
    (hline : Admits options checker lines line) (hcreates : Creates options checker lines line id)
    (hscope : Sketch.isScopeAt (Reading.stage options checker lines (line.number + 1)).entries
      id = false) :
    Stands options checker lines (Reading.stage options checker lines (line.number + 1)).entries
      line id := by
  have hlt := Line.lt_length_of_at? hline.at?
  have hmatches := (matches_stage h line.number).draft
  have hpos : 0 < line.depth := Nat.lt_add_right _ Nat.one_pos
  rcases admits_cases h hlt with ⟨hnone, _⟩ | ⟨other, hother, hnumber, hnext⟩
  · exact absurd rfl (hnone line hline)
  obtain rfl : other = line := hother.eq hline hnumber
  obtain ⟨hlo, hhi⟩ := (creates_iff h).mp hcreates
  have hentries := congrArg Reading.entries hnext
  simp only [Reading.absorb] at hentries
  rw [hentries] at hhi hscope ⊢
  obtain ⟨entry, hgrow, rfl, hlevel, hnumber, hplain⟩ :=
    Sketch.exists_entry_of_grow hlo hhi hscope
  rw [hgrow]
  obtain ⟨scope, hbase, hlast, hright⟩ := hmatches.branch.exists_scope
  have hground := hmatches.regular.levelAt_eq_ground hbase hlast
  have hscopelt := hright.lt
  refine ⟨?_, ⟨scope, ?_, ?_, ?_, ?_⟩, fun hdeep => ?_⟩
  · rw [Sketch.lineAt_length]
    exact hnumber
  · rw [Sketch.isScopeAt_append hscopelt]
    exact hbase
  · intro before hbefore hsome
    rw [Sketch.isScopeAt_append hbefore] at hsome
    exact hlast before hsome
  · refine ⟨hscopelt, fun node hlo hhi => ?_⟩
    refine (hright.append ?_).level_lt node hlo ?_
    · omega
    · rw [List.length_append, List.length_singleton]
      omega
  · rw [Sketch.levelAt_length, Sketch.levelAt_append hscopelt, hground]
    exact hlevel
  · have hroom : other.depth - 1 <
        (Reading.stage options checker lines other.number).room := by
      have hle := hline.depth_le
      rw [room_eq h (Nat.le_of_lt hlt)] at hle
      omega
    obtain ⟨opener, parent, hopener⟩ :=
      exists_opener h (Nat.le_of_lt hlt) (Nat.sub_pos_of_lt hdeep) hroom
    have hstep := hopener.depth_eq
    have hheight := hopener.levelAt
    refine ⟨opener, parent, hopener.admits, hopener.opens, hopener.number_lt, by omega,
      hopener.rightmost.isParent (by omega), fun later hlater hlo hhi => ?_⟩
    have hless := hopener.deeper later hlater hlo hhi
    omega

/-- Every node that is not a section stands where its line says. -/
theorem exists_stands (h : Reading.read options checker lines = .ok reading) {id : Nat}
    (hpos : 0 < id) (hid : id < reading.entries.length)
    (hscope : Sketch.isScopeAt reading.entries id = false) :
    ∃ line, Admits options checker lines line ∧ Creates options checker lines line id ∧
      Stands options checker lines reading.entries line id := by
  have hlast := Reading.stage_length h
  have hin : id < (Reading.stage options checker lines lines.length).entries.length := by
    rw [hlast]
    exact hid
  obtain ⟨line, hline, hcreates⟩ := exists_creates h (Nat.le_refl _) hpos hin
  have hcontinues := Reading.continues_stage h (Line.lt_length_of_at? hline.at?) (Nat.le_refl _)
  rw [hlast] at hcontinues
  have hnew := ((creates_iff h).mp hcreates).2
  have hplain := hcontinues.isScopeAt id hnew
  rw [hscope] at hplain
  exact ⟨line, hline, hcreates, (stands_of_creates h hline hcreates hplain.symm).continues hnew
    hcontinues⟩

end Progress
end Dialogue
