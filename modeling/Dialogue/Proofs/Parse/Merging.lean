import Dialogue.Proofs.Parse.Apart
import Dialogue.Proofs.Parse.Nesting
import Dialogue.Proofs.Parse.Reach
import Dialogue.Proofs.Parse.Transcript

/-! Merging of commands. Command lines of one depth with no node between them make up one command,
and no two commands stand side by side that could have been one. What is further in than such a
line is the body of the command. -/
namespace Dialogue

open Text (Excerpt)

def Line.payload (line : Line) : String := (line.excerpt?.map (·.text)).getD ""

namespace Line.Say

variable {lines : List Line} {line : Line} {mark : Mark} {number column : Nat} {text : String}

theorem marker_of_mem (h : Say lines ⟨number, column, .block (.command text) []⟩)
    (hline : line ∈ lines) : line.marker = .command ∧ line.excerpt? ≠ none := by
  generalize hmark : (⟨number, column, .block (.command text) []⟩ : Mark) = mark at h
  induction h generalizing text with
  | command hmarker htext =>
    obtain rfl := List.mem_singleton.mp hline
    exact ⟨hmarker, htext ▸ Option.some_ne_none _⟩
  | more _ hmarker htext ih =>
    obtain ⟨rfl, rfl, _⟩ := Mark.mk.inj hmark
    rcases List.mem_append.mp hline with hold | hnew
    · exact ih hold rfl
    · obtain rfl := List.mem_singleton.mp hnew
      exact ⟨hmarker, htext ▸ Option.some_ne_none _⟩
  | _ => exact absurd (congrArg Mark.label hmark) nofun

theorem text_eq (h : Say lines ⟨number, column, .block (.command text) []⟩) :
    lines ≠ [] ∧ text = "\n".intercalate (lines.map payload) := by
  generalize hmark : (⟨number, column, .block (.command text) []⟩ : Mark) = mark at h
  induction h generalizing text with
  | command hmarker htext =>
    obtain ⟨_, _, hlabel⟩ := Mark.mk.inj hmark
    simp_all [payload]
  | more _ hmarker htext ih =>
    obtain ⟨rfl, rfl, hlabel⟩ := Mark.mk.inj hmark
    obtain ⟨hne, hfirst⟩ := ih rfl
    refine ⟨by simp, ?_⟩
    rw [List.map_append, String.intercalate_append_of_ne_nil (by simpa using hne) (by simp),
      ← hfirst]
    simp_all [payload]
  | _ => exact absurd (congrArg Mark.label hmark) nofun

theorem exists_command_of_mem (h : Say lines mark) (hline : line ∈ lines)
    (hmarker : line.marker = .command) : ∃ text, mark.label = .block (.command text) [] := by
  cases h with
  | command => exact ⟨_, rfl⟩
  | more => exact ⟨_, rfl⟩
  | _ =>
    obtain rfl := List.mem_singleton.mp hline
    simp_all

end Line.Say

namespace Sketch

variable {entries more : List Entry}

private theorem Continues.ground_eq (h : Continues entries more) (hregular : Regular entries)
    (hregular' : Regular more) (hlength : more.length = entries.length) :
    ground more = ground entries := by
  have hscopes : ground more = 1 ↔ ground entries = 1 := by
    rw [hregular.ground_eq_one_iff, hregular'.ground_eq_one_iff]
    refine exists_congr fun id => and_congr_right fun _ => ?_
    by_cases hid : id < entries.length
    · rw [h.isScopeAt id hid]
    · have hnone {others : List Entry} (hothers : others.length = entries.length) :
          Sketch.isScopeAt others id = false := by
        rw [Sketch.isScopeAt, labelAt?, List.getElem?_eq_none (by omega)]
        rfl
      rw [hnone hlength, hnone rfl]
  have hle := Regular.ground_le_one entries
  have hle' := Regular.ground_le_one more
  omega

end Sketch

namespace Progress

variable {options : Options} {checker : Checker} {lines : List String} {reading : Reading}
  {line first last : Line} {id other : Nat}

/-- A command line that is not too deep and says something. -/
structure IsPiece (options : Options) (checker : Checker) (lines : List String) (line : Line) :
    Prop where
  admits : Admits options checker lines line
  marker : line.marker = .command
  excerpt? : line.excerpt? ≠ none

theorem IsSource.isPiece (h : Reading.read options checker lines = .ok reading)
    (hat : Line.at? lines line.number = some line) (hmarker : line.marker = .command)
    (hid : IsSource options checker lines line id)
    (hat' : Line.at? lines first.number = some first)
    (hfirst : IsSource options checker lines first id) : IsPiece options checker lines first := by
  obtain ⟨⟨level, number, column, label⟩, sources, _, hsay, hsources, hmem⟩ :=
    hid.exists_say h hat
  obtain ⟨text, rfl⟩ : ∃ text, label = .block (.command text) [] :=
    hsay.exists_command_of_mem hmem hmarker
  obtain ⟨hcommand, hsome⟩ := hsay.marker_of_mem
    ((hsources.mem_iff first).mpr ⟨Line.lt_length_of_at? hat', hat', hfirst⟩)
  exact ⟨hfirst.admits h hat', hcommand, hsome⟩

theorem IsPiece.exists_opener (h : Reading.read options checker lines = .ok reading)
    (hpiece : IsPiece options checker lines line) :
    ∃ id, IsSource options checker lines line id ∧
      Opener options checker lines (line.number + 1) line.depth line id ∧
      id + 1 = (Reading.stage options checker lines (line.number + 1)).entries.length := by
  obtain ⟨text, htext⟩ := Option.ne_none_iff_exists'.mp hpiece.excerpt?
  have hline := hpiece.admits
  rcases admits_cases h (Line.lt_length_of_at? hline.at?) with
    ⟨hnone, _⟩ | ⟨other, hother, hnumber, hnext⟩
  · exact absurd rfl (hnone line hline)
  obtain rfl : other = line := hother.eq hline hnumber
  have hentries := congrArg Reading.entries hnext
  simp only [Reading.absorb, Reading.effect, Line.effect_of_command hpiece.marker htext,
    Sketch.grow] at hentries
  split at hentries
  next last hlast =>
    have hopener := opener_of_extend h hline hlast hentries
    obtain ⟨hend, entry, hentry, hcommand, _⟩ := Sketch.extensible?_eq_some_iff.mp hlast
    refine ⟨last, .inr ?_, hopener, ?_⟩
    · exact (appends_iff_of_extend h hline.at? hentry hcommand hentries hpiece.marker
        htext).mpr rfl
    · rw [hentries, List.length_modify, hend]
  next =>
    refine ⟨_, .inl ((creates_iff_of_append h hentries).mpr rfl), ?_, ?_⟩
    · exact opener_of_append h hline hentries rfl rfl rfl
    · rw [hentries, List.length_append, List.length_singleton]

theorem IsPiece.opener (h : Reading.read options checker lines = .ok reading)
    (hpiece : IsPiece options checker lines line)
    (hsource : IsSource options checker lines line id) :
    Opener options checker lines (line.number + 1) line.depth line id ∧
      id + 1 = (Reading.stage options checker lines (line.number + 1)).entries.length := by
  obtain ⟨other, hother, hopener⟩ := hpiece.exists_opener h
  rwa [hother.eq h hpiece.admits.at? hsource] at hopener

theorem Opener.mem_opened (h : Reading.read options checker lines = .ok reading)
    (hopener : Opener options checker lines (line.number + 1) line.depth line id) :
    id ∈ (before options checker lines (line.number + 1)).draft.opened := by
  have hmatches := (matches_stage h (line.number + 1)).draft
  have hroom := (setsLevel_of_admits h hopener.admits).opens id hopener.opens
  have hlength := length_opened_before h (i := line.number + 1)
    (Line.lt_length_of_at? hopener.admits.at?)
  have hinner := hmatches.levelAt_innermost
  have hright := hmatches.isRightmost
  have hlevel := hopener.levelAt
  obtain ⟨below, hopened, _⟩ := hmatches.branch_cons
  have hsame : id = (before options checker lines (line.number + 1)).draft.innermost := by
    generalize (before options checker lines (line.number + 1)).draft.innermost = inner at *
    rcases Nat.lt_trichotomy id inner with hlt | heq | hgt
    · have hdeep := hopener.rightmost.level_lt inner hlt hright.lt
      omega
    · exact heq
    · have hdeep := hright.level_lt id hgt hopener.rightmost.lt
      omega
  rw [hopened, ← hsame]
  exact List.mem_cons_self

/-- Between two pieces of a command no node is added. -/
theorem IsPiece.length_eq (h : Reading.read options checker lines = .ok reading)
    (hfirst : IsPiece options checker lines first) (hlast : IsPiece options checker lines last)
    (hsource : IsSource options checker lines first id)
    (hsource' : IsSource options checker lines last id) (hlt : first.number < last.number) :
    (Reading.stage options checker lines last.number).entries.length = id + 1 := by
  have hend := (hfirst.opener h hsource).2
  have hend' := (hlast.opener h hsource').2
  have hin := Line.lt_length_of_at? hlast.admits.at?
  have hle := (Reading.continues_stage h hlt (Nat.le_of_lt hin)).length_le
  have hle' := (Reading.continues_stage h (Nat.le_add_right last.number 1) hin).length_le
  rw [← hend] at hle
  omega

private theorem not_creates_between (h : Reading.read options checker lines = .ok reading)
    (hfirst : IsPiece options checker lines first) (hlast : IsPiece options checker lines last)
    (hsource : IsSource options checker lines first id)
    (hsource' : IsSource options checker lines last id) (hlo : first.number < line.number)
    (hhi : line.number < last.number) : ¬ Creates options checker lines line other := by
  intro hcreates
  obtain ⟨hnew, hin⟩ := (creates_iff h).mp hcreates
  have hend := (hfirst.opener h hsource).2
  have hend' := hfirst.length_eq h hlast hsource hsource' (Nat.lt_trans hlo hhi)
  have hbound := Nat.le_of_lt (Line.lt_length_of_at? hlast.admits.at?)
  have hle := (Reading.continues_stage h hlo (Nat.le_trans (Nat.le_of_lt hhi) hbound)).length_le
  have hle' := (Reading.continues_stage h hhi hbound).length_le
  rw [← hend] at hle
  rw [hend'] at hle'
  exact Nat.not_lt.mpr (Nat.le_trans hle hnew) (Nat.lt_of_lt_of_le hin hle')

theorem IsPiece.eq_of_between (h : Reading.read options checker lines = .ok reading)
    (hline : IsPiece options checker lines line) (hfirst : IsPiece options checker lines first)
    (hlast : IsPiece options checker lines last)
    (hother : IsSource options checker lines line other)
    (hsource : IsSource options checker lines first id)
    (hsource' : IsSource options checker lines last id) (hlo : first.number ≤ line.number)
    (hhi : line.number < last.number) : other = id := by
  have hend := (hline.opener h hother).2
  have hstart := (hfirst.opener h hsource).2
  have hstop := hfirst.length_eq h hlast hsource hsource' (Nat.lt_of_le_of_lt hlo hhi)
  have hbound := Nat.le_of_lt (Line.lt_length_of_at? hlast.admits.at?)
  have hle := (Reading.continues_stage h (Nat.succ_le_succ hlo)
    (Nat.le_trans hhi hbound)).length_le
  have hle' := (Reading.continues_stage h hhi hbound).length_le
  rw [← hstart] at hle
  rw [hstop] at hle'
  exact Nat.succ.inj (hend.trans (Nat.le_antisymm hle' hle))

theorem IsPiece.depth_eq (h : Reading.read options checker lines = .ok reading)
    (hfirst : IsPiece options checker lines first) (hlast : IsPiece options checker lines last)
    (hsource : IsSource options checker lines first id)
    (hsource' : IsSource options checker lines last id) (hlt : first.number < last.number) :
    first.depth = last.depth := by
  obtain ⟨hopener, hend⟩ := hfirst.opener h hsource
  obtain ⟨hopener', hend'⟩ := hlast.opener h hsource'
  have hle : first.number + 1 ≤ last.number + 1 := by omega
  have hcontinues := Reading.continues_stage h hle (Line.lt_length_of_at? hlast.admits.at?)
  have hground := hcontinues.ground_eq (matches_stage h _).draft.regular
    (matches_stage h _).draft.regular (hend'.symm.trans hend)
  have hlevel := hcontinues.levelAt id hopener.rightmost.lt
  rw [hopener.levelAt, hopener'.levelAt, hground] at hlevel
  omega

private theorem isSource_of_opens (h : Reading.read options checker lines = .ok reading)
    (hat : Line.at? lines line.number = some line)
    (hopens : Opens options checker lines line id) : IsSource options checker lines line id := by
  obtain ⟨hblock, _, hchanged⟩ := (opens_iff h).mp hopens
  cases fate_of_at? h hat with
  | dropped hsame =>
    rw [hsame] at hchanged
    contradiction
  | starts entry hnext =>
    have hlt := Sketch.lt_length_of_isBlockAt hblock
    rw [hnext, List.length_append, List.length_singleton] at hlt
    rcases Nat.lt_or_eq_of_le (Nat.le_of_lt_succ hlt) with hold | hnew
    · rw [hnext, Sketch.labelAt?_append hold] at hchanged
      contradiction
    · exact .inl ((creates_iff_of_append h hnext).mpr hnew)
  | appends last entry text _ hentry hcommand hnext hmarker htext =>
    refine .inr ((appends_iff_of_extend h hat hentry hcommand hnext hmarker htext).mpr ?_)
    refine Decidable.byContradiction fun hne => hchanged ?_
    rw [hnext, Sketch.labelAt?_extend, if_neg (Ne.symm hne)]

/-- A line after another one such that it and all between the two are further in. -/
structure Deeper (options : Options) (checker : Checker) (lines : List String)
    (first line : Line) : Prop where
  number_lt : first.number < line.number
  depth_lt : ∀ other, Admits options checker lines other → first.number < other.number →
    other.number ≤ line.number → first.depth < other.depth

namespace Deeper

variable {line later : Line}

theorem of_le (h : Deeper options checker lines first later) (hlo : first.number < line.number)
    (hhi : line.number ≤ later.number) : Deeper options checker lines first line :=
  ⟨hlo, fun other hother hmore hle => h.depth_lt other hother hmore (Nat.le_trans hle hhi)⟩

end Deeper

theorem Appends.exists_first (h : Reading.read options checker lines = .ok reading)
    (happends : Appends options checker lines line id) :
    ∃ first, IsPiece options checker lines first ∧ Creates options checker lines first id ∧
      first.number < line.number := by
  obtain ⟨hpos, hin, hlt⟩ := lineAt_lt_of_appends h happends
  obtain ⟨first, hfirst, hcreates, hstart⟩ := exists_creates_lineAt h hpos hin
  have hpiece := IsSource.isPiece h happends.at? happends.marker (.inr happends) hfirst.at?
    (.inl hcreates)
  exact ⟨first, hpiece, hcreates, hstart ▸ hlt⟩

private theorem isScope_of_opens (h : Reading.read options checker lines = .ok reading)
    {whole : Tree} (hdrawn : whole.Drawn reading.entries)
    (hat : Line.at? lines line.number = some line)
    (hopens : Opens options checker lines line id) : whole.isScope id = false := by
  obtain ⟨hblock, hscope, _⟩ := (opens_iff h).mp hopens
  have hcontinues := Reading.continues_stage h (Line.lt_length_of_at? hat) (Nat.le_refl _)
  rw [Reading.stage_length h] at hcontinues
  rw [hdrawn.isScope, hcontinues.isScopeAt id (Sketch.lt_length_of_isBlockAt hblock), hscope]

section Body

variable {whole : Tree} {piece : Line} {child : Nat}

theorem IsPiece.body_of_creates (h : Reading.read options checker lines = .ok reading)
    (hdrawn : whole.Drawn reading.entries) (hpiece : IsPiece options checker lines piece)
    (hsource : IsSource options checker lines piece id)
    (hline : Admits options checker lines line)
    (hcreates : Creates options checker lines line child)
    (hscope : whole.isScope child = false) (hdeeper : Deeper options checker lines piece line)
    (hbefore : ∀ opener parent, Admits options checker lines opener →
      IsSource options checker lines opener parent → whole.isScope parent = false →
      opener.number < line.number → Deeper options checker lines piece opener →
      ∃ top ∈ whole.children id, whole.Within top parent) :
    ∃ top ∈ whole.children id, whole.Within top child ∧
      (line.depth = piece.depth + 1 → top = child) := by
  obtain ⟨hpos, hin, hstart⟩ := (lineAt_eq_iff h hline.at?).mpr hcreates
  have hwithin := hdrawn.shaped.within_root (hdrawn.size_eq ▸ hin)
  obtain ⟨other, hhangs⟩ :=
    exists_hangs h hdrawn [] hwithin (Nat.ne_of_gt hpos) hscope
  have hsame : other = line := by
    refine hhangs.admits.eq hline ?_
    rw [← hhangs.lineOf, ← hstart, ← hdrawn.lineOf, Tree.detach_nil]
  have hdepth := hdeeper.depth_lt line hline hdeeper.number_lt (Nat.le_refl _)
  have hpos' : 0 < piece.depth := Nat.lt_add_right _ Nat.one_pos
  obtain ⟨parent, hparent, opener, hadmits, hopens, hnumber, hstep, hbetween⟩ :=
    hhangs.deep (hsame ▸ Nat.lt_of_le_of_lt hpos' hdepth)
  rw [hsame] at hnumber hstep hbetween
  have hchild : child ∈ whole.children parent := (hparent parent).mpr rfl
  have hsource' := isSource_of_opens h hadmits.at? hopens
  rcases Nat.lt_trichotomy opener.number piece.number with hlt | heq | hgt
  · have hless := hbetween piece hpiece.admits hlt hdeeper.number_lt
    omega
  · obtain rfl := hadmits.eq hpiece.admits heq
    obtain rfl := hsource'.eq h hadmits.at? hsource
    exact ⟨child, hchild, .self, fun _ => rfl⟩
  · have hinner := hdeeper.of_le hgt (Nat.le_of_lt hnumber)
    have hmore := hdeeper.depth_lt opener hadmits hgt (Nat.le_of_lt hnumber)
    obtain ⟨top, htop, hbelow⟩ := hbefore opener parent hadmits hsource'
      (isScope_of_opens h hdrawn hadmits.at? hopens) hnumber hinner
    exact ⟨top, htop, hbelow.child hchild, fun hnext => by omega⟩

theorem IsPiece.body (h : Reading.read options checker lines = .ok reading)
    (hdrawn : whole.Drawn reading.entries) (hpiece : IsPiece options checker lines piece)
    (hsource : IsSource options checker lines piece id)
    (hline : Admits options checker lines line)
    (hchild : IsSource options checker lines line child) (hscope : whole.isScope child = false)
    (hdeeper : Deeper options checker lines piece line) :
    ∃ top ∈ whole.children id, whole.Within top child ∧
      (line.depth = piece.depth + 1 → top = child) := by
  generalize hnumber : line.number = number
  induction number using Nat.strongRecOn generalizing line child with
  | _ number ih =>
    subst hnumber
    have houter {opener : Line} {parent : Nat} (hopener : Admits options checker lines opener)
        (hparent : IsSource options checker lines opener parent)
        (hplain : whole.isScope parent = false) (hlt : opener.number < line.number)
        (hinner : Deeper options checker lines piece opener) :
        ∃ top ∈ whole.children id, whole.Within top parent := by
      obtain ⟨top, htop, hwithin, _⟩ := ih _ hlt hopener hparent hplain hinner rfl
      exact ⟨top, htop, hwithin⟩
    rcases hchild with hcreates | happends
    · exact hpiece.body_of_creates h hdrawn hsource hline hcreates hscope hdeeper
        fun _ _ hopener hparent hplain hlt hinner => houter hopener hparent hplain hlt hinner
    · -- The line goes on with a command that starts between the piece and the line.
      obtain ⟨first, hfirst, hcreates, hlt⟩ := happends.exists_first h
      have hlater := IsSource.isPiece h happends.at? happends.marker (.inr happends) hline.at?
        (.inr happends)
      have hdepth := hfirst.depth_eq h hlater (.inl hcreates) (.inr happends) hlt
      have hmore := hdeeper.depth_lt line hline hdeeper.number_lt (Nat.le_refl _)
      rcases Nat.lt_or_ge piece.number first.number with hbehind | hahead
      · have hinner := hdeeper.of_le hbehind (Nat.le_of_lt hlt)
        obtain ⟨top, htop, hwithin, hnext⟩ :=
          ih _ hlt hfirst.admits (.inl hcreates) hscope hinner rfl
        exact ⟨top, htop, hwithin, hdepth ▸ hnext⟩
      · -- Otherwise the piece is of that command, and all pieces are of one depth.
        have hsame := hpiece.eq_of_between h hfirst hlater hsource (.inl hcreates) (.inr happends)
          hahead hdeeper.number_lt
        subst hsame
        have hdepth' := hpiece.depth_eq h hlater hsource (.inr happends) hdeeper.number_lt
        omega

end Body

/-- A command and its pieces: the lines that the text, the start and the end of it come from. -/
structure Composed (options : Options) (checker : Checker) (lines : List String) (tree : Tree)
    (id : NodeId) (pieces : List Line) : Prop where
  sources : Sources options checker lines lines.length id pieces
  isPiece : ∀ piece ∈ pieces, IsPiece options checker lines piece
  depth_eq : ∀ first ∈ pieces, ∀ last ∈ pieces, first.depth = last.depth
  mark? : ∃ first rest excerpt, pieces = first :: rest ∧ first.excerpt? = some excerpt ∧
    tree.mark? id = some ⟨first.number, excerpt.column,
      .block (.command ("\n".intercalate (pieces.map Line.payload))) []⟩
  lt_stopOf : ∀ piece ∈ pieces, piece.number < tree.stopOf id
  alone : ∀ first ∈ pieces, ∀ last ∈ pieces, ∀ line other, first.number < line.number →
    line.number < last.number → ¬ Creates options checker lines line other

private theorem IsPiece.lt_stopOf (h : Reading.read options checker lines = .ok reading)
    (hpiece : IsPiece options checker lines line)
    (hsource : IsSource options checker lines line id) :
    line.number < (read options checker lines).linked.stopOf id := by
  have hopen := (hpiece.opener h hsource).1.mem_opened h
  have hpos := (hsource.bounds h hpiece.admits.at?).1
  exact lt_stopOf_of_opened h hopen (Line.lt_length_of_at? hpiece.admits.at?) (Nat.ne_of_gt hpos)

private theorem IsPiece.depth_eq_of_isSource (h : Reading.read options checker lines = .ok reading)
    (hfirst : IsPiece options checker lines first) (hlast : IsPiece options checker lines last)
    (hsource : IsSource options checker lines first id)
    (hsource' : IsSource options checker lines last id) : first.depth = last.depth := by
  rcases Nat.lt_trichotomy first.number last.number with hlt | heq | hgt
  · exact hfirst.depth_eq h hlast hsource hsource' hlt
  · rw [hfirst.admits.eq hlast.admits heq]
  · exact (hlast.depth_eq h hfirst hsource' hsource hgt).symm

theorem IsPiece.command?_ne (h : Reading.read options checker lines = .ok reading) {tree : Tree}
    (hmark : ∀ id : Nat, tree.mark? id = reading.entries[id]?.map Entry.mark)
    (hpiece : IsPiece options checker lines line)
    (hsource : IsSource options checker lines line id) :
    tree.command? id ≠ none := by
  obtain ⟨entry, sources, hentry, hsay, _, hmem⟩ := hsource.exists_say h hpiece.admits.at?
  obtain ⟨text, hlabel⟩ := hsay.exists_command_of_mem hmem hpiece.marker
  rw [Tree.command?, Tree.label?, hmark, hentry, Option.map_some, Option.map_some, hlabel]
  exact Option.some_ne_none text

theorem exists_composed (h : Reading.read options checker lines = .ok reading) {tree : Tree}
    (hmark : ∀ id : Nat, tree.mark? id = reading.entries[id]?.map Entry.mark)
    (hstop : ∀ id, tree.stopOf id = (read options checker lines).linked.stopOf id) {id : NodeId}
    (hcommand : tree.command? id ≠ none) :
    ∃ pieces, Composed options checker lines tree id pieces := by
  obtain ⟨text, htext⟩ := Option.ne_none_iff_exists'.mp hcommand
  obtain ⟨span, children, hnode⟩ := Tree.exists_node_of_command? htext
  have hfound : tree.mark? id = some ⟨span.line, span.column, .block (.command text) []⟩ := by
    rw [Tree.mark?, hnode]
    rfl
  obtain ⟨⟨level, mark⟩, hentry, rfl⟩ :=
    Option.map_eq_some_iff.mp ((hmark id).symm.trans hfound)
  have hin := (List.getElem?_eq_some_iff.mp hentry).1
  have hpos : 0 < id := by
    refine Nat.pos_of_ne_zero ?_
    rintro rfl
    have hroot := (matches_stage h lines.length).draft.regular.root
    rw [Reading.stage_length h, hentry] at hroot
    have hlabel := congrArg (·.mark.label.isScope) (Option.some.inj hroot)
    contradiction
  obtain ⟨entry, pieces, hentry', hsay, hsources⟩ := exists_sources h hpos hin
  obtain rfl := Option.some.inj (hentry.symm.trans hentry')
  have hat {piece : Line} (hpiece : piece ∈ pieces) : Line.at? lines piece.number = some piece :=
    ((hsources.mem_iff piece).mp hpiece).2.1
  have hsource {piece : Line} (hpiece : piece ∈ pieces) :
      IsSource options checker lines piece id :=
    ((hsources.mem_iff piece).mp hpiece).2.2
  have hisPiece {piece : Line} (hpiece : piece ∈ pieces) : IsPiece options checker lines piece :=
    (hsource hpiece).isPiece h (hat hpiece) (hsay.marker_of_mem hpiece).1 (hat hpiece)
      (hsource hpiece)
  obtain ⟨first, rest, excerpt, hpieces, hnumber, _, hexcerpt, hcolumn⟩ := hsay.exists_command
  refine ⟨pieces, hsources, fun _ => hisPiece, fun first hfirst last hlast => ?_, ?_, ?_, ?_⟩
  · exact (hisPiece hfirst).depth_eq_of_isSource h (hisPiece hlast) (hsource hfirst)
      (hsource hlast)
  · refine ⟨first, rest, excerpt, hpieces, hexcerpt, ?_⟩
    rw [hfound, hnumber, hcolumn, ← hsay.text_eq.2]
  · intro piece hpiece
    rw [hstop]
    exact (hisPiece hpiece).lt_stopOf h (hsource hpiece)
  · intro first hfirst last hlast line other hlo hhi
    exact not_creates_between h (hisPiece hfirst) (hisPiece hlast) (hsource hfirst) (hsource hlast)
      hlo hhi

/-- How command lines are merged. The whole tree is the one before the rejected commands are cut
off. -/
structure Merging (options : Options) (checker : Checker) (lines : List String) (whole : Tree)
    (script : Script) : Prop where
  cut : ∃ rejected, script.tree = whole.detach rejected
  composed : ∀ id, script.tree.command? id ≠ none →
    ∃ pieces, Composed options checker lines script.tree id pieces
  belongs : ∀ line, IsPiece options checker lines line → ∃ id pieces,
    Composed options checker lines script.tree id pieces ∧ line ∈ pieces ∧
    ∀ other others, Composed options checker lines script.tree other others → line ∈ others →
      other = id ∧ others = pieces
  apart : ∀ id, (whole.children id).IsChain fun child next => whole.command? child ≠ none →
    whole.command? next ≠ none → whole.children child ≠ []
  /-- A line further in declares a section, or what it comes to is in the body of the command. -/
  body : ∀ piece id line child, IsPiece options checker lines piece →
    IsSource options checker lines piece id → Admits options checker lines line →
    IsSource options checker lines line child → Deeper options checker lines piece line →
    (whole.isScope child = true ∧ child ∈ whole.children Tree.root) ∨
      ∃ top ∈ whole.children id, whole.Within top child ∧
        (line.depth = piece.depth + 1 → top = child)

end Progress

/-- Command lines are merged where they can be and nowhere else. -/
theorem merging_of_ok {options : Options} {checker : Checker} {lines : List String}
    {script : Script} (h : (parseLines options checker lines).result = .ok script) :
    Progress.Merging options checker lines (Progress.read options checker lines).linked script := by
  obtain ⟨reading, hread, hsettled⟩ := settled_of_ok h
  have hpruned := hsettled.pruned
  have hstop (id : NodeId) : script.tree.stopOf id =
      (Progress.read options checker lines).linked.stopOf id := by
    rw [hsettled.tree, Tree.stopOf_detach]
  constructor
  · exact ⟨_, hsettled.tree⟩
  · intro id hcommand
    exact Progress.exists_composed hread hpruned.mark? hstop hcommand
  · intro line hpiece
    obtain ⟨id, hsource, _⟩ := hpiece.exists_opener hread
    have hmem {other : NodeId} {others : List Line}
        (hother : Progress.Composed options checker lines script.tree other others)
        (hline : line ∈ others) : other = id :=
      ((hother.sources.mem_iff line).mp hline).2.2.eq hread hpiece.admits.at? hsource
    obtain ⟨pieces, hcomposed⟩ := Progress.exists_composed hread hpruned.mark? hstop
      (hpiece.command?_ne hread hpruned.mark? hsource)
    refine ⟨id, pieces, hcomposed, ?_, fun other others hother hline => ?_⟩
    · exact (hcomposed.sources.mem_iff line).mpr
        ⟨Line.lt_length_of_at? hpiece.admits.at?, hpiece.admits.at?, hsource⟩
    · obtain rfl := hmem hother hline
      exact ⟨rfl, hother.sources.eq hcomposed.sources⟩
  · exact hsettled.drawn.isChain_commands (Reading.apart hread)
  · intro piece id line child hpiece hsource hline hchild hdeeper
    obtain ⟨hpos, _⟩ := hchild.bounds hread hline.at?
    cases hscope : (Progress.read options checker lines).linked.isScope child with
    | true =>
      rw [hsettled.drawn.isScope] at hscope
      refine .inl ⟨rfl, ?_⟩
      exact hsettled.drawn.mem_children_root hsettled.regular (Nat.ne_of_gt hpos) hscope
    | false => exact .inr (hpiece.body hread hsettled.drawn hsource hline hchild hscope hdeeper)

/-- Two command lines are one command, across a blank line. A body and a comment keep the ones
behind apart. -/
theorem merging_of_four_commands :
    let checker : Checker := ⟨fun _ _ => none⟩
    let lines := ["# one", "", "# two", "\tsaid", "# three", "// gap", "# four"]
    let commands (script : Script) := script.tree.walk.filterMap script.tree.command?
    ∃ script, (parseLines {} checker lines).result = .ok script ∧
      Progress.Merging {} checker lines (Progress.read {} checker lines).linked script ∧
      commands script = ["one\ntwo", "three", "four"] := by
  intro checker lines commands
  have hparsed : (parseLines {} checker lines).result.toOption.map commands =
      some ["one\ntwo", "three", "four"] := by
    decide +kernel
  obtain ⟨script, hparse, hcommands⟩ := exists_ok_of_map_toOption hparsed
  exact ⟨script, hparse, merging_of_ok hparse, hcommands⟩

end Dialogue
