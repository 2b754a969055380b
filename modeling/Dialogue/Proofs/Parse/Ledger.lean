import Dialogue.Proofs.Parse.Saying

/-! The ledger: which lines a node comes from. A line that is not blank puts a node into the
tree, or goes on with a command that is there already, or is reported as an error. No line
does two of these, so every line is entered once, and a node says what its lines say. -/
namespace Dialogue

theorem Tree.Drawn.exists_label_of_isCommand {tree : Tree} {entries : List Entry} {id : Nat}
    {entry : Entry} (h : tree.Drawn entries) (hentry : entries[id]? = some entry)
    (hcommand : entry.isCommand = true) :
    ∃ first, entry.mark.label = .block (.command first) [] := by
  have hmark := h.mark? id
  rw [hentry] at hmark
  obtain ⟨⟨span, content⟩, _, hnode⟩ := Option.map_eq_some_iff.mp hmark
  obtain ⟨level, mark⟩ := entry
  obtain rfl : Node.mark ⟨span, content⟩ = mark := hnode
  cases content with
  | leaf => contradiction
  | block block children =>
    cases block with
    | scope => contradiction
    | choice => contradiction
    | command text => exact ⟨text, rfl⟩

namespace Progress

variable {options : Options} {checker : Checker} {lines : List String} {reading : Reading}
  {line : Line} {i : Nat} {id : NodeId}

/-- A command line whose text is added, after a line feed, to a command that is there. -/
structure Appends (options : Options) (checker : Checker) (lines : List String) (line : Line)
    (id : NodeId) : Prop where
  at? : Line.at? lines line.number = some line
  marker : line.marker = .command
  label? : ∃ first text, line.excerpt? = some text ∧
    (before options checker lines line.number).draft.tree.label? id =
      some (.block (.command first) []) ∧
    (before options checker lines (line.number + 1)).draft.tree.label? id =
      some (.block (.command (first ++ "\n" ++ text.text)) [])

/-- What becomes of a line that is not blank. -/
inductive Fate (options : Options) (checker : Checker) (lines : List String) (reading : Reading)
    (line : Line) : Prop
  | dropped
      (hsame : (Reading.stage options checker lines (line.number + 1)).entries =
        (Reading.stage options checker lines line.number).entries)
      (herror : ∃ diagnostic ∈ reading.diagnostics.toList, diagnostic.line = line.number ∧
        diagnostic.isError = true)
  | starts (entry : Entry)
      (hnext : (Reading.stage options checker lines (line.number + 1)).entries =
        (Reading.stage options checker lines line.number).entries ++ [entry])
      (hsay : Line.Say [line] entry.mark)
  | appends (id : Nat) (entry : Entry) (text : Text.Excerpt)
      (hlast : id + 1 = (Reading.stage options checker lines line.number).entries.length)
      (hentry : (Reading.stage options checker lines line.number).entries[id]? = some entry)
      (hcommand : entry.isCommand = true)
      (hnext : (Reading.stage options checker lines (line.number + 1)).entries =
        (Reading.stage options checker lines line.number).entries.modify id
          (Entry.extend text.text))
      (hmarker : line.marker = .command) (htext : line.excerpt? = some text)
      (hsilent : reading.diagnostics.toList.filter (·.line = line.number) = [])

theorem fate_of_at? (h : Reading.read options checker lines = .ok reading)
    (hat : Line.at? lines line.number = some line) : Fate options checker lines reading line := by
  have hlt := Line.lt_length_of_at? hat
  obtain ⟨text, htext, hread⟩ := Option.bind_eq_some_iff.mp hat
  have hcases := Reading.feed_cases (Reading.feed_stage h htext)
  rw [Reading.lineCount_stage h (Nat.le_of_lt hlt), hread] at hcases
  rcases hcases with ⟨hblank, _⟩ | ⟨other, hother, hcases⟩
  · contradiction
  obtain rfl := Option.some.inj hother
  rcases hcases with ⟨hdeep, hnext⟩ | ⟨_, hfailure, hnext⟩
  · have hfilter := Reading.filter_diagnostics_of_deep h hat hdeep
    have hmem : line.complaint line.column .tooDeep ∈
        reading.diagnostics.toList.filter (·.line = line.number) := by
      rw [hfilter]
      exact List.mem_singleton_self _
    refine .dropped ?_ ⟨_, (List.mem_filter.mp hmem).1, rfl, rfl⟩
    rw [hnext]
  · have hentries := congrArg Reading.entries hnext
    have hfilter := Reading.filter_diagnostics_of_absorb h hlt hnext
    simp only [Reading.absorb] at hentries
    rcases Sketch.grow_cases (Reading.stage options checker lines line.number).entries line.depth
      line.number ((Reading.stage options checker lines line.number).effect options checker
        line).growth with ⟨hnothing, hgrow⟩ | ⟨entry, hgrow, hmark⟩ | ⟨id, column, text, hgrowth, hid, hgrow⟩
    · obtain ⟨diagnostic, hmem, herror⟩ := line.reports_effect options _ _ hread hnothing hfailure
      have hfound : diagnostic ∈ reading.diagnostics.toList.filter (·.line = line.number) := by
        rw [hfilter]
        exact hmem
      obtain ⟨hin, hline⟩ := List.mem_filter.mp hfound
      exact .dropped (hentries.trans hgrow) ⟨diagnostic, hin, of_decide_eq_true hline, herror⟩
    · exact .starts entry (hentries.trans hgrow) (Line.say_effect hmark)
    · obtain ⟨hmarker, htext⟩ := Line.exists_excerpt_of_command hgrowth
      obtain ⟨hlast, entry, hentry, hcommand, _⟩ := Sketch.extensible?_eq_some_iff.mp hid
      refine .appends id entry ⟨column, text⟩ hlast hentry hcommand (hentries.trans hgrow) hmarker
        htext ?_
      rw [hfilter, Reading.effect, Line.effect_of_command hmarker htext]

theorem appends_iff (h : Reading.read options checker lines = .ok reading) :
    Appends options checker lines line id ↔
      Line.at? lines line.number = some line ∧ line.marker = .command ∧
      ∃ first text, line.excerpt? = some text ∧
        Sketch.labelAt? (Reading.stage options checker lines line.number).entries id =
          some (.block (.command first) []) ∧
        Sketch.labelAt? (Reading.stage options checker lines (line.number + 1)).entries id =
          some (.block (.command (first ++ "\n" ++ text.text)) []) := by
  have hbefore := (matches_stage h line.number).draft.drawn
  have hafter := (matches_stage h (line.number + 1)).draft.drawn
  rw [← hafter.label?, ← hbefore.label?]
  exact ⟨fun h => ⟨h.at?, h.marker, h.label?⟩, fun h => ⟨h.1, h.2.1, h.2.2⟩⟩

theorem not_appends_of_labelAt?_eq (h : Reading.read options checker lines = .ok reading)
    (hsame : id < (Reading.stage options checker lines line.number).entries.length →
      Sketch.labelAt? (Reading.stage options checker lines (line.number + 1)).entries id =
        Sketch.labelAt? (Reading.stage options checker lines line.number).entries id) :
    ¬ Appends options checker lines line id := by
  intro happends
  obtain ⟨_, _, first, text, _, hbefore, hafter⟩ := (appends_iff h).mp happends
  have hblock : Sketch.isBlockAt (Reading.stage options checker lines line.number).entries id =
      true := by
    rw [Sketch.isBlockAt, hbefore]
    rfl
  rw [hsame (Sketch.lt_length_of_isBlockAt hblock), hbefore] at hafter
  exact Content.extend_ne (Option.some.inj hafter).symm

theorem not_creates_of_length_eq (h : Reading.read options checker lines = .ok reading)
    (hlength : (Reading.stage options checker lines (line.number + 1)).entries.length =
      (Reading.stage options checker lines line.number).entries.length) :
    ¬ Creates options checker lines line id := by
  intro hcreates
  obtain ⟨hlo, hhi⟩ := (creates_iff h).mp hcreates
  exact Nat.not_lt.mpr hlo (hlength ▸ hhi)

/-- A line is a source of the node that it puts into the tree and of the command that it
goes on with. -/
def IsSource (options : Options) (checker : Checker) (lines : List String) (line : Line)
    (id : NodeId) : Prop :=
  Creates options checker lines line id ∨ Appends options checker lines line id

theorem not_isSource_of_same (h : Reading.read options checker lines = .ok reading)
    (hsame : (Reading.stage options checker lines (line.number + 1)).entries =
      (Reading.stage options checker lines line.number).entries) :
    ¬ IsSource options checker lines line id := by
  rintro (hcreates | happends)
  · exact not_creates_of_length_eq h (congrArg List.length hsame) hcreates
  · exact not_appends_of_labelAt?_eq h (fun _ => by rw [hsame]) happends

theorem creates_iff_of_append (h : Reading.read options checker lines = .ok reading)
    {entry : Entry} (hnext : (Reading.stage options checker lines (line.number + 1)).entries =
      (Reading.stage options checker lines line.number).entries ++ [entry]) :
    Creates options checker lines line id ↔
      id = (Reading.stage options checker lines line.number).entries.length := by
  rw [creates_iff h, hnext, List.length_append, List.length_singleton]
  constructor
  · rintro ⟨hlo, hhi⟩
    exact Nat.le_antisymm (Nat.le_of_lt_succ hhi) hlo
  · rintro rfl
    exact ⟨Nat.le_refl _, Nat.lt_succ_self _⟩

theorem not_appends_of_append (h : Reading.read options checker lines = .ok reading)
    {entry : Entry} (hnext : (Reading.stage options checker lines (line.number + 1)).entries =
      (Reading.stage options checker lines line.number).entries ++ [entry]) :
    ¬ Appends options checker lines line id :=
  not_appends_of_labelAt?_eq h fun hlt => by rw [hnext, Sketch.labelAt?_append hlt]

theorem appends_iff_of_extend (h : Reading.read options checker lines = .ok reading)
    (hat : Line.at? lines line.number = some line) {last : Nat} {entry : Entry}
    {text : Text.Excerpt}
    (hentry : (Reading.stage options checker lines line.number).entries[last]? = some entry)
    (hcommand : entry.isCommand = true)
    (hnext : (Reading.stage options checker lines (line.number + 1)).entries =
      (Reading.stage options checker lines line.number).entries.modify last
        (Entry.extend text.text))
    (hmarker : line.marker = .command) (htext : line.excerpt? = some text) :
    Appends options checker lines line id ↔ id = last := by
  constructor
  · intro happends
    refine Decidable.byContradiction fun hne => ?_
    refine not_appends_of_labelAt?_eq h (fun _ => ?_) happends
    rw [hnext, Sketch.labelAt?_extend, if_neg (Ne.symm hne)]
  · rintro rfl
    obtain ⟨first, hlabel⟩ :=
      (matches_stage h line.number).draft.drawn.exists_label_of_isCommand hentry hcommand
    have hbefore : Sketch.labelAt? (Reading.stage options checker lines line.number).entries id =
        some (.block (.command first) []) := by
      rw [Sketch.labelAt?, hentry, Option.map_some, hlabel]
    refine (appends_iff h).mpr ⟨hat, hmarker, first, text, htext, hbefore, ?_⟩
    rw [hnext, Sketch.labelAt?_extend, if_pos rfl, hbefore]
    rfl

theorem IsSource.eq {other : NodeId} (h : Reading.read options checker lines = .ok reading)
    (hat : Line.at? lines line.number = some line)
    (hid : IsSource options checker lines line id)
    (hother : IsSource options checker lines line other) : id = other := by
  cases fate_of_at? h hat with
  | dropped hsame => exact absurd hid (not_isSource_of_same h hsame)
  | starts entry hnext =>
    have hend {id : NodeId} (hid : IsSource options checker lines line id) :
        id = (Reading.stage options checker lines line.number).entries.length :=
      (creates_iff_of_append h hnext).mp (hid.resolve_right (not_appends_of_append h hnext))
    rw [hend hid, hend hother]
  | appends last entry text _ hentry hcommand hnext hmarker htext =>
    have hlength := congrArg List.length hnext
    rw [List.length_modify] at hlength
    have hend {id : NodeId} (hid : IsSource options checker lines line id) : id = last :=
      (appends_iff_of_extend h hat hentry hcommand hnext hmarker htext).mp
        (hid.resolve_left (not_creates_of_length_eq h hlength))
    rw [hend hid, hend hother]

theorem IsSource.admits (h : Reading.read options checker lines = .ok reading)
    (hat : Line.at? lines line.number = some line)
    (hid : IsSource options checker lines line id) : Admits options checker lines line := by
  rcases admits_cases h (Line.lt_length_of_at? hat) with
    ⟨_, _, _, hnext⟩ | ⟨other, hother, hnumber, _⟩
  · exact absurd hid (not_isSource_of_same h (by rw [hnext]))
  · have hsame := hother.at?
    rw [hnumber, hat] at hsame
    exact Option.some.inj hsame ▸ hother

structure Sources (options : Options) (checker : Checker) (lines : List String) (i : Nat)
    (id : NodeId) (sources : List Line) : Prop where
  sorted : sources.Pairwise (·.number < ·.number)
  mem_iff : ∀ line, line ∈ sources ↔
    line.number < i ∧ Line.at? lines line.number = some line ∧
      IsSource options checker lines line id

namespace Sources

variable {sources : List Line}

theorem nil (h : Reading.read options checker lines = .ok reading) (hi : i ≤ lines.length)
    (hid : (Reading.stage options checker lines i).entries.length ≤ id) :
    Sources options checker lines i id [] := by
  refine ⟨.nil, fun line => iff_of_false List.not_mem_nil ?_⟩
  rintro ⟨hlt, hat, hsource⟩
  have hle := (Reading.continues_stage h (Nat.succ_le_of_lt hlt) hi).length_le
  have hin : id < (Reading.stage options checker lines (line.number + 1)).entries.length := by
    rcases hsource with hcreates | happends
    · exact ((creates_iff h).mp hcreates).2
    · obtain ⟨_, _, first, text, _, _, hafter⟩ := (appends_iff h).mp happends
      exact Sketch.lt_length_of_isBlockAt (by rw [Sketch.isBlockAt, hafter]; rfl)
  exact Nat.not_lt.mpr hid (Nat.lt_of_lt_of_le hin hle)

private theorem succ (h : Sources options checker lines i id sources)
    (hnone : ∀ line, Line.at? lines i = some line → ¬ IsSource options checker lines line id) :
    Sources options checker lines (i + 1) id sources := by
  refine ⟨h.sorted, fun line => (h.mem_iff line).trans (and_congr_left ?_)⟩
  rintro ⟨hat, hsource⟩
  refine ⟨Nat.lt_succ_of_lt, fun hlt => Nat.lt_of_le_of_ne (Nat.le_of_lt_succ hlt) ?_⟩
  rintro rfl
  exact hnone line hat hsource

theorem snoc (h : Sources options checker lines line.number id sources)
    (hat : Line.at? lines line.number = some line)
    (hsource : IsSource options checker lines line id) :
    Sources options checker lines (line.number + 1) id (sources ++ [line]) := by
  constructor
  · refine List.pairwise_append.mpr ⟨h.sorted, List.pairwise_singleton .., ?_⟩
    intro early hearly late hlate
    obtain rfl := List.mem_singleton.mp hlate
    exact ((h.mem_iff early).mp hearly).1
  · intro other
    rw [List.mem_append, List.mem_singleton, h.mem_iff]
    constructor
    · rintro (⟨hlt, hold⟩ | rfl)
      · exact ⟨Nat.lt_succ_of_lt hlt, hold⟩
      · exact ⟨Nat.lt_succ_self _, hat, hsource⟩
    · rintro ⟨hlt, hother, hold⟩
      rcases Nat.lt_or_eq_of_le (Nat.le_of_lt_succ hlt) with hbefore | heq
      · exact .inl ⟨hbefore, hother, hold⟩
      · rw [heq, hat] at hother
        exact .inr (Option.some.inj hother).symm

theorem eq {others : List Line} (h : Sources options checker lines i id sources)
    (hother : Sources options checker lines i id others) : sources = others := by
  exact eq_of_sorted_on Line.number h.sorted hother.sorted fun line =>
    (h.mem_iff line).trans (hother.mem_iff line).symm

end Sources

def Entered (options : Options) (checker : Checker) (lines : List String) (i id : Nat) : Prop :=
  ∃ entry sources, (Reading.stage options checker lines i).entries[id]? = some entry ∧
    Line.Say sources entry.mark ∧ Sources options checker lines i id sources

theorem Entered.succ {id : Nat} (h : Entered options checker lines i id)
    (hsame : (Reading.stage options checker lines (i + 1)).entries[id]? =
      (Reading.stage options checker lines i).entries[id]?)
    (hnone : ∀ line, Line.at? lines i = some line → ¬ IsSource options checker lines line id) :
    Entered options checker lines (i + 1) id := by
  obtain ⟨entry, sources, hentry, hsay, hsources⟩ := h
  exact ⟨entry, sources, hsame.trans hentry, hsay, hsources.succ hnone⟩

private theorem entered_of_append (h : Reading.read options checker lines = .ok reading)
    (hat : Line.at? lines line.number = some line) {entry : Entry}
    (hnext : (Reading.stage options checker lines (line.number + 1)).entries =
      (Reading.stage options checker lines line.number).entries ++ [entry])
    (hsay : Line.Say [line] entry.mark) :
    Entered options checker lines (line.number + 1)
      (Reading.stage options checker lines line.number).entries.length := by
  refine ⟨entry, [line], ?_, hsay, ?_⟩
  · rw [hnext, List.getElem?_concat_length]
  · have hnone := Sources.nil h (Nat.le_of_lt (Line.lt_length_of_at? hat)) (Nat.le_refl _)
    exact hnone.snoc hat (.inl ((creates_iff_of_append h hnext).mpr rfl))

private theorem Entered.extend (h : Reading.read options checker lines = .ok reading)
    (hat : Line.at? lines line.number = some line) {id : Nat} {entry : Entry}
    {text : Text.Excerpt} (hid : Entered options checker lines line.number id)
    (hentry : (Reading.stage options checker lines line.number).entries[id]? = some entry)
    (hcommand : entry.isCommand = true)
    (hnext : (Reading.stage options checker lines (line.number + 1)).entries =
      (Reading.stage options checker lines line.number).entries.modify id
        (Entry.extend text.text))
    (hmarker : line.marker = .command) (htext : line.excerpt? = some text) :
    Entered options checker lines (line.number + 1) id := by
  obtain ⟨found, sources, hfound, hsay, hsources⟩ := hid
  obtain rfl : entry = found := Option.some.inj (hentry.symm.trans hfound)
  obtain ⟨first, hlabel⟩ :=
    (matches_stage h line.number).draft.drawn.exists_label_of_isCommand hentry hcommand
  have happends := (appends_iff_of_extend h hat hentry hcommand hnext hmarker htext).mpr rfl
  refine ⟨entry.extend text.text, sources ++ [line], ?_, ?_, hsources.snoc hat (.inr happends)⟩
  · rw [hnext, Sketch.getElem?_extend, if_pos rfl, hentry]
    rfl
  · obtain ⟨level, number, column, label⟩ := entry
    obtain rfl : label = _ := hlabel
    exact .more hsay hmarker htext

/-- A line leaves every node with what its lines say. -/
theorem entered_succ (h : Reading.read options checker lines = .ok reading)
    (hat : Line.at? lines line.number = some line) {id : Nat}
    (hold : id < (Reading.stage options checker lines line.number).entries.length →
      Entered options checker lines line.number id)
    (hid : id < (Reading.stage options checker lines (line.number + 1)).entries.length) :
    Entered options checker lines (line.number + 1) id := by
  have hline {P : Line → Prop} (hone : P line) (other : Line)
      (hother : Line.at? lines line.number = some other) : P other :=
    Option.some.inj (hat.symm.trans hother) ▸ hone
  cases fate_of_at? h hat with
  | dropped hsame =>
    rw [hsame] at hid
    exact (hold hid).succ (by rw [hsame]) (hline (not_isSource_of_same h hsame))
  | starts entry hnext hsay =>
    rw [hnext, List.length_append, List.length_singleton] at hid
    rcases Nat.lt_or_eq_of_le (Nat.le_of_lt_succ hid) with hbefore | rfl
    · refine (hold hbefore).succ ?_ (hline ?_)
      · rw [hnext, List.getElem?_append_left hbefore]
      · rintro (hcreates | happends)
        · exact Nat.ne_of_lt hbefore ((creates_iff_of_append h hnext).mp hcreates)
        · exact not_appends_of_append h hnext happends
    · exact entered_of_append h hat hnext hsay
  | appends last entry text _ hentry hcommand hnext hmarker htext =>
    have hlength := congrArg List.length hnext
    rw [List.length_modify] at hlength
    rw [hlength] at hid
    -- Only the command that goes on has one more line to come from.
    by_cases heq : id = last
    · subst heq
      exact (hold hid).extend h hat hentry hcommand hnext hmarker htext
    · refine (hold hid).succ ?_ (hline ?_)
      · rw [hnext, Sketch.getElem?_extend, if_neg (Ne.symm heq)]
      · rintro (hcreates | happends)
        · exact not_creates_of_length_eq h hlength hcreates
        · exact heq
            ((appends_iff_of_extend h hat hentry hcommand hnext hmarker htext).mp happends)

theorem entered_of_pos (h : Reading.read options checker lines = .ok reading)
    (hi : i ≤ lines.length) {id : Nat} (hpos : 0 < id)
    (hid : id < (Reading.stage options checker lines i).entries.length) :
    Entered options checker lines i id := by
  induction i with
  | zero =>
    have hone : id < 1 := hid
    omega
  | succ i ih =>
    have hle := Nat.le_of_succ_le hi
    cases hat : Line.at? lines i with
    | none =>
      have hsame : (Reading.stage options checker lines (i + 1)).entries =
          (Reading.stage options checker lines i).entries := by
        rcases Reading.stage_cases h hi with ⟨_, hnext⟩ | ⟨line, hline, _⟩
        · rw [hnext]
        · rw [hat] at hline
          contradiction
      rw [hsame] at hid
      refine (ih hle hid).succ (by rw [hsame]) fun line hline => ?_
      rw [hat] at hline
      contradiction
    | some line =>
      obtain rfl := Line.number_of_at? hat
      exact entered_succ h hat (ih hle) hid

/-- What a node says in the end, and the lines that say it. -/
theorem exists_sources (h : Reading.read options checker lines = .ok reading) {id : Nat}
    (hpos : 0 < id) (hid : id < reading.entries.length) :
    ∃ entry sources, reading.entries[id]? = some entry ∧ Line.Say sources entry.mark ∧
      Sources options checker lines lines.length id sources := by
  have hentered := entered_of_pos h (Nat.le_refl _) hpos ((Reading.stage_length h).symm ▸ hid)
  rwa [Entered, Reading.stage_length h] at hentered

theorem lineAt_of_creates (h : Reading.read options checker lines = .ok reading)
    (hat : Line.at? lines line.number = some line)
    (hcreates : Creates options checker lines line id) :
    id = (Reading.stage options checker lines line.number).entries.length ∧
      Sketch.lineAt reading.entries id = line.number := by
  cases fate_of_at? h hat with
  | dropped hsame => exact absurd hcreates (not_creates_of_length_eq h (congrArg _ hsame))
  | appends _ _ _ _ _ _ hnext =>
    refine absurd hcreates (not_creates_of_length_eq h ?_)
    rw [hnext, List.length_modify]
  | starts entry hnext hsay =>
    have hid := (creates_iff_of_append h hnext).mp hcreates
    have hcontinues := Reading.continues_stage h (Line.lt_length_of_at? hat) (Nat.le_refl _)
    obtain ⟨first, rest, heq, hnumber⟩ := hsay.exists_first
    obtain ⟨rfl, _⟩ := List.cons.inj heq
    refine ⟨hid, ?_⟩
    rw [← Reading.stage_length h, hcontinues.lineAt id ((creates_iff h).mp hcreates).2, hnext, hid,
      Sketch.lineAt_length]
    exact hnumber.symm

theorem number_lt_of_creates (h : Reading.read options checker lines = .ok reading)
    (hat : Line.at? lines line.number = some line)
    (hcreates : Creates options checker lines line id)
    (hid : id < (Reading.stage options checker lines i).entries.length) : line.number < i := by
  refine Nat.lt_of_not_le fun hle => ?_
  have hlength := (Reading.continues_stage h hle
    (Nat.le_of_lt (Line.lt_length_of_at? hat))).length_le
  have hlo := ((creates_iff h).mp hcreates).1
  exact Nat.not_lt.mpr (Nat.le_trans hlength hlo) hid

theorem exists_creates_lineAt (h : Reading.read options checker lines = .ok reading) {id : Nat}
    (hpos : 0 < id) (hid : id < reading.entries.length) :
    ∃ line, Admits options checker lines line ∧ Creates options checker lines line id ∧
      Sketch.lineAt reading.entries id = line.number := by
  rw [← Reading.stage_length h] at hid
  obtain ⟨line, hline, hcreates⟩ := exists_creates h (Nat.le_refl _) hpos hid
  exact ⟨line, hline, hcreates, (lineAt_of_creates h hline.at? hcreates).2⟩

theorem lineAt_eq_iff (h : Reading.read options checker lines = .ok reading)
    (hat : Line.at? lines line.number = some line) {id : Nat} :
    (0 < id ∧ id < reading.entries.length ∧ Sketch.lineAt reading.entries id = line.number) ↔
      Creates options checker lines line id := by
  constructor
  · rintro ⟨hpos, hid, hnumber⟩
    obtain ⟨other, hother, hcreates, hline⟩ := exists_creates_lineAt h hpos hid
    have hsame := hother.at?
    rw [← hline, hnumber, hat] at hsame
    exact Option.some.inj hsame ▸ hcreates
  · intro hcreates
    have hbounds := (creates_iff h).mp hcreates
    have hcontinues := Reading.continues_stage h (Line.lt_length_of_at? hat) (Nat.le_refl _)
    rw [Reading.stage_length h] at hcontinues
    refine ⟨?_, Nat.lt_of_lt_of_le hbounds.2 hcontinues.length_le,
      (lineAt_of_creates h hat hcreates).2⟩
    exact Nat.lt_of_lt_of_le (matches_stage h line.number).draft.regular.length_pos hbounds.1

theorem lineAt_lt_lineAt (h : Reading.read options checker lines = .ok reading) {id other : Nat}
    (hpos : 0 < id) (hlt : id < other) (hother : other < reading.entries.length) :
    Sketch.lineAt reading.entries id < Sketch.lineAt reading.entries other := by
  obtain ⟨early, hearly, hcreates, hline⟩ := exists_creates_lineAt h hpos (Nat.lt_trans hlt hother)
  obtain ⟨late, hlate, hthen, hnumber⟩ :=
    exists_creates_lineAt h (Nat.zero_lt_of_lt hlt) hother
  rw [hline, hnumber]
  refine number_lt_of_creates h hearly.at? hcreates ?_
  exact (lineAt_of_creates h hlate.at? hthen).1 ▸ hlt

theorem eq_of_lineAt_eq (h : Reading.read options checker lines = .ok reading) {id other : Nat}
    (hpos : 0 < id) (hid : id < reading.entries.length) (hpos' : 0 < other)
    (hother : other < reading.entries.length)
    (hsame : Sketch.lineAt reading.entries id = Sketch.lineAt reading.entries other) :
    id = other := by
  rcases Nat.lt_trichotomy id other with hlt | heq | hgt
  · exact absurd hsame (Nat.ne_of_lt (lineAt_lt_lineAt h hpos hlt hother))
  · exact heq
  · exact absurd hsame (Nat.ne_of_gt (lineAt_lt_lineAt h hpos' hgt hid))

theorem lineAt_lt_of_appends (h : Reading.read options checker lines = .ok reading)
    (happends : Appends options checker lines line id) :
    0 < id ∧ id < reading.entries.length ∧ Sketch.lineAt reading.entries id < line.number := by
  obtain ⟨hat, _, first, text, _, hlabel, _⟩ := (appends_iff h).mp happends
  have hle := Nat.le_of_lt (Line.lt_length_of_at? hat)
  have hid : id < (Reading.stage options checker lines line.number).entries.length :=
    Sketch.lt_length_of_isBlockAt (by rw [Sketch.isBlockAt, hlabel]; rfl)
  have hpos : 0 < id := by
    refine Nat.pos_of_ne_zero ?_
    rintro rfl
    rw [Sketch.labelAt?, (matches_stage h line.number).draft.regular.root] at hlabel
    cases hlabel
  have hin : id < reading.entries.length := by
    have hlength := (Reading.continues_stage h hle (Nat.le_refl _)).length_le
    rw [Reading.stage_length h] at hlength
    exact Nat.lt_of_lt_of_le hid hlength
  obtain ⟨first, hfirst, hcreates, hline⟩ := exists_creates_lineAt h hpos hin
  exact ⟨hpos, hin, hline ▸ number_lt_of_creates h hfirst.at? hcreates hid⟩

theorem IsSource.bounds (h : Reading.read options checker lines = .ok reading)
    (hat : Line.at? lines line.number = some line)
    (hid : IsSource options checker lines line id) : 0 < id ∧ id < reading.entries.length := by
  rcases hid with hcreates | happends
  · obtain ⟨hpos, hin, _⟩ := (lineAt_eq_iff h hat).mpr hcreates
    exact ⟨hpos, hin⟩
  · obtain ⟨hpos, hin, _⟩ := lineAt_lt_of_appends h happends
    exact ⟨hpos, hin⟩

theorem IsSource.exists_say (h : Reading.read options checker lines = .ok reading)
    (hat : Line.at? lines line.number = some line)
    (hid : IsSource options checker lines line id) :
    ∃ entry sources, reading.entries[id]? = some entry ∧ Line.Say sources entry.mark ∧
      Sources options checker lines lines.length id sources ∧ line ∈ sources := by
  obtain ⟨hpos, hin⟩ := hid.bounds h hat
  obtain ⟨entry, sources, hentry, hsay, hsources⟩ := exists_sources h hpos hin
  exact ⟨entry, sources, hentry, hsay, hsources,
    (hsources.mem_iff line).mpr ⟨Line.lt_length_of_at? hat, hat, hid⟩⟩

end Progress
end Dialogue
