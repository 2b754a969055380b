import Dialogue.Proofs.Parse.Findings
import Dialogue.Proofs.Parse.Modular
import Dialogue.Proofs.Tree.Remark

/-! Remarked scripts. A comment line that is put in right before a line, at the same depth, adds a
node of its own there: what is read before it stays, and what is read from there on moves down by a
line and up by a number. -/
namespace Dialogue

def Diagnostic.renumbered (renumber : Nat → Nat) (diagnostic : Diagnostic) : Diagnostic :=
  { diagnostic with line := renumber diagnostic.line }

namespace Link

def complaint (link : Link) : Diagnostic := ⟨link.line, link.column, .unknownScope link.key⟩

theorem filterMap_complaint? (tree : Tree) (links : List Link) :
    links.filterMap (complaint? tree) = (links.map complaint).filter (! tree.settles ·) := by
  induction links with
  | nil => rfl
  | cons link rest ih =>
    have hsettles : tree.settles link.complaint = (tree.find? link.key).isSome := rfl
    rw [List.filterMap_cons, List.map_cons, List.filter_cons, hsettles, ← ih, complaint?]
    cases tree.find? link.key <;> rfl

end Link

namespace Sketch

variable {front back : List Entry} {remark : Entry} {depth number : Nat} {growth : Growth}

/-- A sketch with an entry put in. The lines of what comes behind it are one further down. -/
def withRemark (front : List Entry) (remark : Entry) (back : List Entry) : List Entry :=
  front ++ remark :: back.map (Entry.moved 1)

theorem length_withRemark :
    (withRemark front remark back).length = (front ++ back).length + 1 := by
  simp [withRemark, Nat.add_assoc]

theorem getElem?_withRemark_length :
    (withRemark front remark back)[front.length]? = some remark := by
  rw [withRemark, List.getElem?_append_right (Nat.le_refl _), Nat.sub_self]
  rfl

theorem getElem?_withRemark (id : Nat) :
    (withRemark front remark back)[around front.length id]? =
      if id < front.length then (front ++ back)[id]?
      else ((front ++ back)[id]?).map (Entry.moved 1) := by
  split
  next hlt =>
    rw [around_of_lt hlt, withRemark, List.getElem?_append_left hlt,
      List.getElem?_append_left hlt]
  next hge =>
    have hle := Nat.le_of_not_lt hge
    rw [around_of_le hle, withRemark, List.getElem?_append_right (Nat.le_succ_of_le hle),
      List.getElem?_append_right hle, Nat.succ_sub hle, List.getElem?_cons_succ,
      List.getElem?_map]

theorem levelAt_withRemark (id : Nat) :
    levelAt (withRemark front remark back) (around front.length id) =
      levelAt (front ++ back) id := by
  rw [levelAt, levelAt, getElem?_withRemark]
  split
  · rfl
  · rw [Option.map_map]
    rfl

theorem labelAt?_withRemark (id : Nat) :
    labelAt? (withRemark front remark back) (around front.length id) =
      labelAt? (front ++ back) id := by
  rw [labelAt?, labelAt?, getElem?_withRemark]
  split
  · rfl
  · rw [Option.map_map]
    rfl

theorem keys_withRemark (hkey : remark.key? = none) :
    keys (shape (withRemark front remark back)) = keys (shape (front ++ back)) := by
  rw [Entry.key?_eq] at hkey
  rw [withRemark, shape, List.map_append, List.map_cons, ← shape, ← shape, keys_append, keys_cons,
    hkey, shape_moved, shape, shape, shape, List.map_append, keys_append]
  rfl

theorem ground_withRemark (hkey : remark.key? = none) :
    ground (withRemark front remark back) = ground (front ++ back) := by
  rw [ground_eq_floor, ground_eq_floor, floor, floor, keys_withRemark hkey]

theorem lookup_names_withRemark (hkey : remark.key? = none) (key : String) :
    (names (withRemark front remark back)).lookup key =
      ((names (front ++ back)).lookup key).map (around front.length) := by
  have hmoved : (back.map (Entry.moved 1)).findIdx? (·.key? == some key) =
      back.findIdx? (·.key? == some key) := by
    rw [List.findIdx?_map]
    simp [Function.comp_def]
  have hremark : (remark.key? == some key) = false := by
    rw [hkey]
    rfl
  rw [lookup_names, lookup_names, withRemark, List.findIdx?_append, List.findIdx?_append,
    List.findIdx?_cons, hmoved, hremark, if_neg Bool.false_ne_true]
  cases hfound : front.findIdx? (·.key? == some key) with
  | some id =>
    obtain ⟨hlt, _⟩ := List.findIdx?_eq_some_iff_getElem.mp hfound
    exact congrArg some (around_of_lt hlt).symm
  | none =>
    simp only [Option.none_or, Option.map_map]
    refine congrArg (Option.map · _) (funext fun id => ?_)
    simp only [Function.comp]
    rw [around_of_le (Nat.le_add_left ..)]
    omega

theorem append_withRemark (entry : Entry) :
    withRemark front remark back ++ [entry.moved 1] =
      withRemark front remark (back ++ [entry]) := by
  simp [withRemark]

theorem grow_command_withRemark (hkey : remark.key? = none) (hcommand : remark.isCommand = false)
    {column : Nat} {text : String}
    (hadded : front.length < (grow front depth number (.command column text)).length) :
    ∃ more, more ≠ [] ∧ grow front depth number (.command column text) = front ++ more ∧
      grow (withRemark front remark []) depth (1 + number) (.command column text) =
        withRemark front remark more := by
  have hground : ground (withRemark front remark []) = ground front := by
    rw [ground_withRemark hkey, List.append_nil]
  have hshut : extensible? front (ground front + depth) = none := by
    cases hfound : extensible? front (ground front + depth) with
    | none => rfl
    | some id =>
      simp only [grow, hfound, List.length_modify] at hadded
      exact absurd hadded (Nat.lt_irrefl _)
  have hremark (level : Nat) : extensible? (withRemark front remark []) level = none := by
    simp [extensible?, withRemark, hcommand]
  refine ⟨[⟨ground front + depth, number, column, .block (.command text) []⟩],
    List.cons_ne_nil _ _, ?_, ?_⟩
  · simp only [grow, hshut]
  · simp only [grow, hremark, hground]
    simp [withRemark, Entry.moved, Mark.moved]

theorem grow_command_withRemark_concat (hkey : remark.key? = none) (last : Entry) {column : Nat}
    {text : String} :
    ∃ more, more ≠ [] ∧
      grow (front ++ (back ++ [last])) depth number (.command column text) = front ++ more ∧
      grow (withRemark front remark (back ++ [last])) depth (1 + number) (.command column text) =
        withRemark front remark more := by
  have hground : ground (withRemark front remark (back ++ [last])) =
      ground (front ++ (back ++ [last])) := ground_withRemark hkey
  rw [← append_withRemark, ← List.append_assoc] at hground ⊢
  rw [grow_command_concat, grow_command_concat, hground, Entry.isCommand_moved]
  show ∃ more, more ≠ [] ∧
    (if last.isCommand && last.level == ground (front ++ back ++ [last]) + depth then _
      else _) = _ ∧
    (if last.isCommand && last.level == ground (front ++ back ++ [last]) + depth then _
      else _) = _
  split
  · refine ⟨back ++ [last.extend text], by simp, by simp, ?_⟩
    simp [withRemark, Entry.moved, Entry.extend, Mark.moved, Mark.extend]
  · refine ⟨back ++ [last] ++ [⟨ground (front ++ back ++ [last]) + depth, number, column,
      .block (.command text) []⟩], by simp, by simp, ?_⟩
    rw [← append_withRemark, ← append_withRemark]
    rfl

/-- What a line adds behind the remark. If nothing is there yet, it adds a node. -/
theorem exists_grow_withRemark (front : List Entry) (remark : Entry) (back : List Entry)
    (hkey : remark.key? = none) (hcommand : remark.isCommand = false)
    (hback : back ≠ [] ∨ front.length < (grow front depth number growth).length) :
    ∃ more, more ≠ [] ∧ grow (front ++ back) depth number growth = front ++ more ∧
      grow (withRemark front remark back) depth (1 + number) growth =
        withRemark front remark more := by
  have hground : ground (withRemark front remark back) = ground (front ++ back) :=
    ground_withRemark hkey
  have happend (entry : Entry) : ∃ more, more ≠ [] ∧ front ++ back ++ [entry] = front ++ more ∧
      withRemark front remark back ++ [entry.moved 1] = withRemark front remark more :=
    ⟨back ++ [entry], by simp, List.append_assoc .., append_withRemark entry⟩
  cases growth with
  | nothing => exact ⟨back, hback.resolve_right (Nat.lt_irrefl _), rfl, rfl⟩
  | leaf column leaf =>
    rw [grow, grow, hground]
    exact happend ⟨_, number, column, .leaf leaf.unaimed⟩
  | choice column text condition =>
    rw [grow, grow, hground]
    exact happend ⟨_, number, column, .block (.choice text condition) []⟩
  | scope column key declared =>
    rw [grow, grow]
    exact happend ⟨1, number, column, .block (.scope (some key)) []⟩
  | command column text =>
    rcases List.eq_nil_or_concat back with rfl | ⟨before, last, rfl⟩
    · -- The line adds a command, so there was none to go on with, and the remark is none.
      rw [List.append_nil]
      exact grow_command_withRemark hkey hcommand (hback.resolve_left fun hne => hne rfl)
    · rw [List.concat_eq_append]
      exact grow_command_withRemark_concat hkey last

end Sketch

namespace Reading

variable {options : Options} {checker : Checker} {front reading other next : Reading} {line : Line}
  {remark : Entry} {text : String} {lines : List String} {count : Nat}

structure Shifted (count : Nat) (reading other : Reading) : Prop where
  lineCount : other.lineCount = 1 + reading.lineCount
  le_lineCount : count ≤ reading.lineCount
  complaints : other.links.toList.map Link.complaint =
    (reading.links.toList.map Link.complaint).map (Diagnostic.renumbered (around count))
  diagnostics : other.diagnostics.toList =
    reading.diagnostics.toList.map (Diagnostic.renumbered (around count))

/-- A reading, and the reading with a remark in front of what comes behind some lines. -/
structure Remarked (front : Reading) (remark : Entry) (reading other : Reading) : Prop extends
    Shifted front.lineCount reading other where
  room : other.room = reading.room
  entries : ∃ back, back ≠ [] ∧ reading.entries = front.entries ++ back ∧
    other.entries = Sketch.withRemark front.entries remark back

private theorem map_renumbered_of_lt {diagnostics : List Diagnostic}
    (h : ∀ diagnostic ∈ diagnostics, diagnostic.line < count) :
    diagnostics.map (Diagnostic.renumbered (around count)) = diagnostics := by
  refine (List.map_congr_left fun diagnostic hmem => ?_).trans (List.map_id _)
  rw [Diagnostic.renumbered, around_of_lt (h diagnostic hmem)]
  rfl

theorem line_lt_of_read (h : read options checker lines = .ok reading) :
    (∀ diagnostic ∈ reading.diagnostics.toList, diagnostic.line < reading.lineCount) ∧
      ∀ diagnostic ∈ reading.links.toList.map Link.complaint,
        diagnostic.line < reading.lineCount := by
  have hfound := exists_line_of_mem_diagnostics h (Nat.le_refl _)
  have hlinks := Progress.exists_admits_of_link h (Nat.le_refl _)
  rw [stage_length h] at hfound hlinks
  rw [lineCount_of_read h]
  refine ⟨fun diagnostic hmem => (hfound diagnostic hmem).1, fun diagnostic hmem => ?_⟩
  obtain ⟨link, hlink, rfl⟩ := List.mem_map.mp hmem
  obtain ⟨line, hadmits, _, hline, _⟩ := hlinks link hlink
  show link.line < lines.length
  rw [hline]
  exact Line.lt_length_of_at? hadmits.at?

namespace Shifted

theorem map_renumbered_found {found : List Diagnostic}
    (hfound : ∀ diagnostic ∈ found, diagnostic.line = line.number) (h : count ≤ line.number) :
    found.map (Diagnostic.renumbered (around count)) = found.map (Diagnostic.moved 1) := by
  refine List.map_congr_left fun diagnostic hmem => ?_
  rw [Diagnostic.renumbered, Diagnostic.moved, around_of_le (hfound diagnostic hmem ▸ h),
    Nat.add_comm]

private theorem push (h : Shifted count reading other) {diagnostic : Diagnostic}
    (hline : count ≤ diagnostic.line) :
    Shifted count
      { reading with
        lineCount := reading.lineCount + 1
        diagnostics := reading.diagnostics.push diagnostic }
      { other with
        lineCount := other.lineCount + 1
        diagnostics := other.diagnostics.push (diagnostic.moved 1) } := by
  refine ⟨congrArg (· + 1) h.lineCount, Nat.le_succ_of_le h.le_lineCount, h.complaints, ?_⟩
  rw [Array.toList_push, Array.toList_push, h.diagnostics, List.map_append, List.map_singleton,
    Diagnostic.renumbered, Diagnostic.moved, around_of_le hline, Nat.add_comm]

theorem absorb (h : Shifted count reading other) (hnumber : count ≤ line.number)
    (judge : Query → Option Rejection) (taken : String → Option Nat) :
    Shifted count
      (({ reading with lineCount := reading.lineCount + 1 } : Reading).absorb line
        (line.effect options judge taken))
      (({ other with lineCount := other.lineCount + 1 } : Reading).absorb (line.moved 1)
        ((line.effect options judge taken).moved 1)) := by
  refine ⟨congrArg (· + 1) h.lineCount, Nat.le_succ_of_le h.le_lineCount, ?_, ?_⟩
  · have hlinks (growth : Growth) (id place : Nat) :
        (growth.links id (1 + line.number) line.restColumn).map Link.complaint =
          ((growth.links place line.number line.restColumn).map Link.complaint).map
            (Diagnostic.renumbered (around count)) := by
      unfold Growth.links
      split
      · simp [Link.complaint, Diagnostic.renumbered, around_of_le hnumber, Nat.add_comm]
      · rfl
    simp only [Reading.absorb, Array.toList_appendList, List.map_append, h.complaints]
    exact congrArg _ (hlinks ..)
  · simp only [Reading.absorb, Array.toList_appendList, List.map_append, h.diagnostics]
    refine congrArg _ (map_renumbered_found (fun diagnostic hmem => ?_) hnumber).symm
    exact (line.found_effect options judge taken diagnostic hmem).line_eq

end Shifted

namespace Remarked

private theorem keys_eq (h : Remarked front remark reading other) (hkey : remark.key? = none) :
    other.keys = reading.keys := by
  obtain ⟨back, _, hentries, hmore⟩ := h.entries
  rw [keys, keys, hentries, hmore, Sketch.keys_withRemark hkey]

theorem exists_reads (h : Remarked front remark reading other) (hkey : remark.key? = none)
    (hcommand : remark.isCommand = false) (hreads : reading.Reads options text next) :
    ∃ after, other.Reads options text after ∧ Remarked front remark next after := by
  have hread : Line.read? other.lineCount text.toList =
      (Line.read? reading.lineCount text.toList).map (Line.moved 1) := by
    rw [h.lineCount]
    exact Line.read?_add ..
  cases hreads with
  | blank hline =>
    rw [hline] at hread
    exact ⟨_, .blank hread, ⟨congrArg (· + 1) h.lineCount, Nat.le_succ_of_le h.le_lineCount,
      h.complaints, h.diagnostics⟩, h.room, h.entries⟩
  | deep line hline hdeep =>
    have hnumber : front.lineCount ≤ line.number := Line.number_of_read? hline ▸ h.le_lineCount
    rw [hline] at hread
    exact ⟨_, .deep _ hread (h.room ▸ hdeep), h.toShifted.push hnumber, h.room, h.entries⟩
  | fits line hline hfits hfree =>
    have hnumber : front.lineCount ≤ line.number := Line.number_of_read? hline ▸ h.le_lineCount
    rw [hline] at hread
    have hfits : (line.moved 1).depth ≤ other.room := h.room ▸ hfits
    have hfree : ∀ key, (line.moved 1).declared? options = some key → key ∉ other.keys :=
      fun key hdeclared => h.keys_eq hkey ▸ hfree key hdeclared
    refine ⟨_, .fits _ hread hfits hfree, ?_⟩
    rw [Line.effect_moved]
    refine ⟨h.toShifted.absorb hnumber _ _, rfl, ?_⟩
    obtain ⟨back, hback, hentries, hmore⟩ := h.entries
    show ∃ back, back ≠ [] ∧ Sketch.grow reading.entries line.depth line.number _ = _ ∧
      Sketch.grow other.entries line.depth (1 + line.number) _ = _
    rw [hentries, hmore]
    exact Sketch.exists_grow_withRemark _ _ _ hkey hcommand (.inl hback)

theorem exists_foldlM (hfail : options.duplicates = .fail)
    (h : Remarked front remark reading other) (hkey : remark.key? = none)
    (hcommand : remark.isCommand = false)
    (hlines : lines.foldlM (feed options .lenient) reading = .ok next) :
    ∃ after, lines.foldlM (feed options .lenient) other = .ok after ∧
      Remarked front remark next after := by
  induction lines generalizing reading other with
  | nil =>
    obtain rfl := Except.ok.inj hlines
    exact ⟨other, rfl, h⟩
  | cons text lines ih =>
    obtain ⟨middle, hfirst, hrest⟩ := foldlM_cons_eq_ok_iff.mp hlines
    obtain ⟨between, hreads, hmiddle⟩ :=
      h.exists_reads hkey hcommand ((feed_eq_ok_iff hfail).mp hfirst)
    obtain ⟨after, hafter, hlast⟩ := ih hmiddle hrest
    exact ⟨after, foldlM_cons_eq_ok_iff.mpr
      ⟨between, (feed_eq_ok_iff hfail).mpr hreads, hafter⟩, hlast⟩

end Remarked

def remarkOf (reading : Reading) (line : Line) : Entry :=
  let comment := line.excerpt?.getD ⟨line.column, ""⟩
  ⟨Sketch.ground reading.entries + line.depth, line.number, comment.column,
    .leaf (.comment comment.text)⟩

theorem exists_reads_comment (options : Options) {extra : Line}
    (hextra : Line.read? reading.lineCount text.toList = some extra)
    (hmarker : extra.marker = .comment) (hfits : extra.depth ≤ reading.room) :
    ∃ after, reading.Reads options text after ∧
      after.entries = reading.entries ++ [reading.remarkOf extra] ∧ after.room = extra.depth ∧
      after.lineCount = 1 + reading.lineCount ∧ after.links = reading.links ∧
      after.diagnostics = reading.diagnostics := by
  have hdeclared : extra.declared? options = none := by
    rw [Line.declared?, hmarker]
    exact if_neg fun h => Marker.noConfusion h.1
  refine ⟨_, .fits extra hextra hfits fun key hkey => ?_, ?_⟩
  · rw [hdeclared] at hkey
    contradiction
  simp only [Line.effect, hmarker, absorb]
  refine ⟨?_, rfl, Nat.add_comm .., Array.append_empty, Array.append_empty⟩
  rw [Sketch.grow, remarkOf, Line.number_of_read? hextra]
  rfl

/-- A line that adds a node adds it behind a comment of its depth as well. -/
theorem exists_remarked (hfront : read options .lenient lines = .ok front) {comment : String}
    {extra : Line} (hextra : Line.read? front.lineCount comment.toList = some extra)
    (hmarker : extra.marker = .comment)
    (hline : Line.read? front.lineCount text.toList = some line) (hdepth : extra.depth = line.depth)
    (hreads : front.Reads options text next)
    (hnew : front.entries.length < next.entries.length) :
    ∃ between after, front.Reads options comment between ∧ between.Reads options text after ∧
      Remarked front (front.remarkOf extra) next after := by
  cases hreads with
  | blank => exact absurd hnew (Nat.lt_irrefl _)
  | deep => exact absurd hnew (Nat.lt_irrefl _)
  | fits found hfound hfits hfree =>
    obtain rfl := Option.some.inj (hline.symm.trans hfound)
    obtain ⟨between, hcomment, hentries, hroom, hcount, hlinks, hdiagnostics⟩ :=
      exists_reads_comment options hextra hmarker (hdepth ▸ hfits)
    have hnumber : front.lineCount ≤ line.number := Nat.le_of_eq (Line.number_of_read? hline).symm
    have hwith : between.entries = Sketch.withRemark front.entries (front.remarkOf extra) [] :=
      hentries
    have hkeys : between.keys = front.keys := by
      rw [keys, hwith, Sketch.keys_withRemark rfl, List.append_nil, keys]
    obtain ⟨hfound, hlinked⟩ := line_lt_of_read hfront
    have hshifted : Shifted front.lineCount front between := by
      refine ⟨hcount, Nat.le_refl _, ?_, ?_⟩
      · rw [hlinks, map_renumbered_of_lt hlinked]
      · rw [hdiagnostics, map_renumbered_of_lt hfound]
    have hread : Line.read? between.lineCount text.toList = some (line.moved 1) := by
      rw [hcount, Line.read?_add, hline]
      rfl
    have hroom : (line.moved 1).depth ≤ between.room := Nat.le_of_eq (hroom.trans hdepth).symm
    have hfree : ∀ key, (line.moved 1).declared? options = some key → key ∉ between.keys :=
      fun key hdeclared => hkeys ▸ hfree key hdeclared
    refine ⟨between, _, hcomment, .fits _ hread hroom hfree, ?_⟩
    rw [Line.effect_moved]
    refine ⟨hshifted.absorb hnumber _ _, rfl, ?_⟩
    have hgrow := Sketch.exists_grow_withRemark _ (front.remarkOf extra) [] rfl rfl (.inr hnew)
    rw [List.append_nil, ← hwith] at hgrow
    exact hgrow

end Reading
end Dialogue
