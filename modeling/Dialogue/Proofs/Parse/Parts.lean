import Dialogue.Proofs.Parse.Modular

/-! Parts of a script: the lines before its sections, and sections with the lines up to the next.
Lines that declare nothing can always be read, and a part that declares one name by itself comes to
a script with one section in front. -/
namespace Dialogue

/-- The name of the section that a line declares. A line that is too deep declares none. -/
def Progress.declaredAt? (options : Options) (lines : List String) (number : Nat) :
    Option String :=
  ((Line.at? lines number).filter fun line =>
    line.depth ≤ room options .lenient lines number).bind (Line.declared? options)

structure Part where
  key : String
  lines : List String

structure Part.Alone (part : Part) : Prop where
  heads : ∃ line : Line, line.Heads part.lines part.key
  only : ∀ number, number ≠ 0 → Progress.declaredAt? {} part.lines number = none

theorem Progress.declaredAt?_eq_none {options : Options} {lines : List String} {first : Nat}
    (h : ∀ number < lines.length, first ≤ number → declaredAt? options lines number = none)
    {number : Nat} (hfirst : first ≤ number) : declaredAt? options lines number = none := by
  rcases Nat.lt_or_ge number lines.length with hlt | hge
  · exact h number hlt hfirst
  · rw [declaredAt?, Line.at?, List.getElem?_eq_none hge]
    rfl

private theorem Line.at?_append {lines : List String} {i : Nat} (h : i < lines.length)
    (more : List String) : at? (lines ++ more) i = at? lines i := by
  rw [at?, at?, List.getElem?_append_left h]

theorem Progress.room_append (options : Options) (checker : Checker) {lines : List String} {i : Nat}
    (hi : i ≤ lines.length) (more : List String) :
    room options checker (lines ++ more) i = room options checker lines i := by
  induction i with
  | zero => rfl
  | succ i ih =>
    have hbefore : before options checker (lines ++ more) i = before options checker lines i := by
      rw [before, before, List.take_append_of_le_length (Nat.le_of_succ_le hi)]
    rw [room, room, Line.at?_append hi, ih (Nat.le_of_succ_le hi)]
    cases hat : Line.at? lines i with
    | none => rfl
    | some line =>
      obtain rfl := Line.number_of_at? hat
      simp only [growthOf, hbefore]

namespace Reading

variable {options : Options} {lines more : List String} {reading : Reading} {text : String}

theorem exists_reads (hnone : ∀ line, Line.read? reading.lineCount text.toList = some line →
    line.depth ≤ reading.room → line.declared? options = none) :
    ∃ next, reading.Reads options text next ∧ next.keys = reading.keys := by
  cases hline : Line.read? reading.lineCount text.toList with
  | none => exact ⟨_, .blank hline, rfl⟩
  | some line =>
    rcases Nat.lt_or_ge reading.room line.depth with hdeep | hfits
    · exact ⟨_, .deep line hline hdeep, rfl⟩
    · have hdeclared := hnone line hline hfits
      refine ⟨_, .fits line hline hfits fun key hkey => ?_, ?_⟩
      · rw [hdeclared] at hkey
        contradiction
      · rw [keys_absorb, Line.key?_growth_effect, hdeclared]
        exact List.append_nil _

/-- Lines that declare nothing can be read behind any others. -/
theorem exists_read_append (hfail : options.duplicates = .fail)
    (hread : read options .lenient lines = .ok reading)
    (hnone : ∀ number, lines.length ≤ number →
      Progress.declaredAt? options (lines ++ more) number = none) :
    ∃ whole, read options .lenient (lines ++ more) = .ok whole ∧ whole.keys = reading.keys := by
  induction more generalizing lines reading with
  | nil =>
    rw [List.append_nil]
    exact ⟨reading, hread, rfl⟩
  | cons text rest ih =>
    have hlast := stage_length hread
    have hcount := lineCount_of_read hread
    have hroom : Progress.room options .lenient (lines ++ text :: rest) lines.length =
        reading.room := by
      rw [Progress.room_append _ _ (Nat.le_refl _), Progress.room_eq hread (Nat.le_refl _), hlast]
    obtain ⟨next, hreads, hkeys⟩ : ∃ next, reading.Reads options text next ∧
        next.keys = reading.keys := by
      refine exists_reads fun line hline hfits => ?_
      have hat : Line.at? (lines ++ text :: rest) lines.length = some line := by
        rw [Line.at?, List.getElem?_append_right (Nat.le_refl _), Nat.sub_self, ← hcount]
        exact hline
      have hdeclared := hnone lines.length (Nat.le_refl _)
      rwa [Progress.declaredAt?, hat, hroom, Option.filter_some, if_pos (decide_eq_true hfits),
        Option.bind_some] at hdeclared
    have hnext : read options .lenient (lines ++ [text]) = .ok next := by
      rw [read] at hread ⊢
      rw [List.foldlM_append, hread]
      exact foldlM_cons_eq_ok_iff.mpr ⟨next, (feed_eq_ok_iff hfail).mpr hreads, rfl⟩
    rw [← List.singleton_append, ← List.append_assoc] at hnone ⊢
    obtain ⟨whole, hwhole, hsame⟩ := ih hnext fun number hle => hnone number
      (Nat.le_trans (by rw [List.length_append]; exact Nat.le_add_right ..) hle)
    exact ⟨whole, hwhole, hsame.trans hkeys⟩

end Reading

theorem exists_unnamed {lines : List String}
    (hnone : ∀ number, Progress.declaredAt? {} lines number = none) :
    ∃ script, (parseLines {} .lenient lines).result = .ok script ∧
      ∀ key, script.tree.find? key = none := by
  have hnil : Reading.read {} .lenient [] = .ok {} := rfl
  obtain ⟨reading, hread, hkeys⟩ := Reading.exists_read_append rfl hnil fun number
    (_ : List.length [] ≤ number) => hnone number
  obtain ⟨script, hscript, hsettled⟩ := exists_settled_of_read hread
  refine ⟨script, hscript, fun key => hsettled.find?_eq_none_iff.mpr ?_⟩
  rw [hkeys]
  exact List.not_mem_nil

theorem exists_cons_of_one_mem {ids : List Nat} (hsorted : ids.Pairwise (· < ·))
    (hpos : ∀ id ∈ ids, 0 < id) (hone : 1 ∈ ids) : ∃ rest, ids = 1 :: rest := by
  cases ids with
  | nil => contradiction
  | cons first rest =>
    rcases List.mem_cons.mp hone with rfl | hrest
    · exact ⟨rest, rfl⟩
    · have hlt := (List.pairwise_cons.mp hsorted).1 1 hrest
      exact absurd (hpos first List.mem_cons_self) (by omega)

theorem Script.Settled.exists_children_root {options : Options} {script : Script}
    {asked : Array Query} {reading : Reading} {tree : Tree} {lines : List String} {line : Line}
    {key : String} (h : script.Settled .lenient asked reading tree)
    (hfail : options.duplicates = .fail) (hheads : line.Heads lines key)
    (hread : Reading.read options .lenient lines = .ok reading) :
    ∃ rest, script.tree.children Tree.root = 1 :: rest ∧ script.tree.isScope 1 = true := by
  obtain ⟨text, more, rfl, hline, hkey⟩ := hheads.exists_cons options
  obtain ⟨column, declared, hgrowth⟩ :=
    Growth.exists_scope_of_key? ((Line.key?_growth_effect options (fun _ => none) line).trans hkey)
  have hstage : Reading.stage options .lenient (text :: more) 1 = Reading.opening options line :=
    Except.ok.inj ((Reading.read_take hread 1).symm.trans
      ((Reading.read_opening_iff hfail hline hheads.depth).mpr rfl))
  have hentries : (Reading.opening options line).entries =
      [Entry.root, ⟨1, line.number, column, .block (.scope (some key)) []⟩] := by
    rw [Reading.opening, Reading.absorb, hgrowth]
    rfl
  have hscope : script.tree.isScope 1 = true := by
    have hpos : 1 ≤ (text :: more).length := Nat.le_add_left 1 more.length
    have hcontinues := Reading.continues_stage hread hpos (Nat.le_refl _)
    rw [hstage, Reading.stage_length hread] at hcontinues
    rw [h.pruned.isScope, hcontinues.isScopeAt 1 (by rw [hentries]; exact Nat.one_lt_two), hentries]
    rfl
  rw [h.tree_lenient] at hscope ⊢
  have hchild := h.mem_children_root Nat.one_ne_zero hscope
  have hforward := h.drawn.shaped.forward
  obtain ⟨rest, hrest⟩ := exists_cons_of_one_mem (h.drawn.shaped.sorted _)
    (fun id hid => (hforward _ id hid).1) hchild
  exact ⟨rest, hrest, hscope⟩

theorem Part.Alone.exists_script {part : Part} (h : part.Alone) :
    ∃ script, (parseLines {} .lenient part.lines).result = .ok script ∧
      (∀ key, script.tree.find? key = none ↔ key ≠ part.key) ∧
      ∃ rest, script.tree.children Tree.root = 1 :: rest ∧ script.tree.isScope 1 = true := by
  obtain ⟨line, hheads⟩ := h.heads
  obtain ⟨text, more, hlines, hline, hkey⟩ := hheads.exists_cons {}
  have hfirst : Reading.read {} .lenient [text] = .ok (Reading.opening {} line) :=
    (Reading.read_opening_iff rfl hline hheads.depth).mpr rfl
  obtain ⟨reading, hread, hkeys⟩ := Reading.exists_read_append rfl hfirst (by
    intro number hle
    rw [List.singleton_append, ← hlines]
    exact h.only number (Nat.ne_of_gt hle))
  rw [List.singleton_append, ← hlines] at hread
  obtain ⟨script, hscript, hsettled⟩ := exists_settled_of_read hread
  refine ⟨script, hscript, fun key => ?_, hsettled.exists_children_root rfl hheads hread⟩
  rw [hsettled.find?_eq_none_iff, hkeys, Reading.keys_opening hkey, List.mem_singleton]

end Dialogue
