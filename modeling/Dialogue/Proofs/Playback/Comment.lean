import Dialogue.Proofs.Parse.Remark
import Dialogue.Proofs.Playback.Remark

/-! Comments. A comment line may be put in front of any line that adds a node, at the same depth,
and nobody who plays the script can tell. Only between two choices it may not stand, since it parts
them, and a section that is indented is left out of account. -/
namespace Dialogue

namespace Sketch

variable {front back entries : List Entry} {remark : Entry} {id parent : Nat}

theorem Regular.isScopeAt_of_ground (h : Regular entries)
    (hpos : ∀ id : Nat, 0 < id → id < entries.length → 0 < levelAt entries id)
    (hlt : parent < entries.length) (hlevel : levelAt entries parent = ground entries)
    (hbehind : ∀ id, parent < id → id < entries.length → ground entries < levelAt entries id) :
    isScopeAt entries parent = true := by
  rcases Nat.eq_zero_or_pos parent with rfl | hparent
  · exact h.isScopeAt_root
  · have hone : ground entries = 1 := by
      have hle := Regular.ground_le_one entries
      have hdeep := hpos parent hparent hlt
      omega
    obtain ⟨id, hid, hscope⟩ := h.ground_eq_one_iff.mp hone
    have hin := lt_length_of_isBlockAt (isBlockAt_of_isScopeAt hscope)
    rcases Nat.lt_trichotomy id parent with hbefore | rfl | hafter
    · exact h.sections_last id parent hid hscope hbefore hlt (hlevel.trans hone)
    · exact hscope
    · have hdeep := hbehind id hafter hin
      rw [h.section_level id hid hscope, hone] at hdeep
      exact absurd hdeep (Nat.lt_irrefl _)

/-- An entry that may be put in as a remark: a comment, on the level of the entry that comes next,
or in the last section if a section comes next. -/
structure IsRemark (front : List Entry) (remark : Entry) (back : List Entry) : Prop where
  ne_nil : back ≠ []
  regular : Regular front
  label : ∃ text, remark.mark.label = .leaf (.comment text)
  level : levelAt (front ++ back) front.length = remark.level ∨
    levelAt (front ++ back) front.length < remark.level ∧ remark.level = ground front + 1

namespace IsRemark

private theorem key?_eq_none (h : IsRemark front remark back) : remark.key? = none := by
  obtain ⟨text, hlabel⟩ := h.label
  exact Entry.key?_eq_none (by rw [hlabel]; rfl)

theorem levelAt_place : levelAt (withRemark front remark back) front.length = remark.level := by
  rw [levelAt, getElem?_withRemark_length]
  rfl

theorem lt_length (h : IsRemark front remark back) : front.length < (front ++ back).length := by
  rw [List.length_append]
  exact Nat.lt_add_of_pos_right (List.length_pos_iff.mpr h.ne_nil)

end IsRemark
end Sketch

namespace Tree

variable {tree other : Tree} {front back : List Entry} {remark : Entry} {id : NodeId}

theorem isScope_of_parent (htree : tree.Spells (front ++ back))
    (hremark : Sketch.IsRemark front remark back)
    (hlow : Sketch.levelAt (front ++ back) front.length < remark.level)
    (hparent : IsParent (Sketch.levelAt (Sketch.withRemark front remark back))
      (around front.length id) front.length) : tree.isScope id = true := by
  have hlt : id < front.length := around_lt_place_iff.mp hparent.lt
  have hground : remark.level = Sketch.ground front + 1 := by
    rcases hremark.level with hsame | ⟨_, hground⟩
    · omega
    · exact hground
  have hlevel := hparent.level_eq
  rw [Sketch.IsRemark.levelAt_place, Sketch.levelAt_withRemark, hground,
    Sketch.levelAt_append hlt] at hlevel
  rw [htree.drawn.isScope, Sketch.isScopeAt_append hlt]
  refine hremark.regular.isScopeAt_of_ground (fun inner hpos hin => ?_) hlt
    (Nat.succ.inj hlevel).symm fun inner hlo hhi => ?_
  · rw [← Sketch.levelAt_append hin]
    refine htree.drawn.shaped.level_pos inner hpos ?_
    rw [htree.drawn.size_eq]
    exact Nat.lt_trans hin hremark.lt_length
  · have hbetween := hparent.le_between (around front.length inner)
      (around_lt_around_iff.mpr hlo) (around_lt_place_iff.mpr hhi)
    rw [Sketch.IsRemark.levelAt_place, Sketch.levelAt_withRemark, hground,
      Sketch.levelAt_append hhi] at hbetween
    exact hbetween

section Spells

variable (htree : tree.Spells (front ++ back))
  (hother : other.Spells (Sketch.withRemark front remark back))
  (hremark : Sketch.IsRemark front remark back)

include htree hother hremark

theorem Spells.children_around (parent : NodeId) :
    other.children (around front.length parent) =
        (tree.children parent).map (around front.length) ∨
    ∃ before after, tree.children parent = before ++ after ∧
      other.children (around front.length parent) =
        before.map (around front.length) ++ front.length :: after.map (around front.length) ∧
      (after.head? = some front.length ∨ after = [] ∧ tree.isScope parent = true) := by
  have hsize : other.size = tree.size + 1 := by
    rw [htree.drawn.size_eq, hother.drawn.size_eq, Sketch.length_withRemark]
  have hdeep : Sketch.levelAt (front ++ back) front.length ≤
      Sketch.levelAt (Sketch.withRemark front remark back) front.length := by
    rw [Sketch.IsRemark.levelAt_place]
    rcases hremark.level with hsame | ⟨hlow, _⟩
    · exact Nat.le_of_eq hsame
    · exact Nat.le_of_lt hlow
  have hcases := htree.drawn.shaped.children_around hother.drawn.shaped hsize
    (htree.drawn.size_eq ▸ hremark.lt_length) (fun _ => Sketch.levelAt_withRemark _) hdeep parent
  rcases hcases with hplain | ⟨before, after, hparent, hsplit, hwith, hsame, hlast⟩
  · exact .inl hplain
  · rw [Sketch.IsRemark.levelAt_place] at hsame hlast
    refine .inr ⟨before, after, hsplit, hwith, ?_⟩
    rcases hremark.level with heq | ⟨hlow, _⟩
    · exact .inl (hsame heq)
    · exact .inr ⟨hlast hlow, isScope_of_parent htree hremark hlow hparent⟩

private theorem Spells.children_eq_nil_iff (hscope : tree.isScope id = false) :
    tree.children id = [] ↔ other.children (around front.length id) = [] := by
  rcases htree.children_around hother hremark id with
    hplain | ⟨before, after, hsplit, hwith, hnext | ⟨_, hholder⟩⟩
  · rw [hplain, List.map_eq_nil_iff]
  · rw [hwith, hsplit]
    refine iff_of_false (fun hnone => ?_) (by simp)
    rw [(List.append_eq_nil_iff.mp hnone).2] at hnext
    contradiction
  · rw [hholder] at hscope
    contradiction

theorem Spells.beside (hchoice : ∀ parent before previous after,
      tree.children parent = before ++ previous :: front.length :: after →
        tree.isChoice previous = true → tree.isChoice front.length = false) (id : NodeId) :
    tree.Beside front.length (tree.children id) (other.children (around front.length id)) := by
  rcases htree.children_around hother hremark id with
    hplain | ⟨before, after, hsplit, hwith, hnext | ⟨rfl, _⟩⟩
  · rw [hplain]
    exact .elsewhere _
  · rw [hsplit, hwith]
    refine .among before after fun hlast => ?_
    obtain ⟨rest, rfl⟩ := List.head?_eq_some_iff.mp hnext
    obtain ⟨previous, hprevious, hbefore⟩ := (Option.any_eq_true _ _).mp hlast
    obtain ⟨early, rfl⟩ := List.getLast?_eq_some_iff.mp hprevious
    refine hchoice id early previous rest ?_ hbefore
    rw [hsplit, List.append_assoc, List.singleton_append]
  · rw [hsplit, hwith]
    exact .among before [] fun _ => rfl

theorem Spells.find?_around (key : String) :
    other.find? key = (tree.find? key).map (around front.length) := by
  rw [find?, find?, htree.names, hother.names,
    Sketch.lookup_names_withRemark hremark.key?_eq_none]

omit hremark in
theorem Spells.label?_around (id : NodeId) :
    other.label? (around front.length id) = tree.label? id := by
  rw [htree.drawn.label?, hother.drawn.label?, Sketch.labelAt?_withRemark]

theorem Spells.target?_around {node : Node} {key : String} {target : Option NodeId}
    (hnode : tree.get? id = some node) (hjump : node.content = .leaf (.jump key target)) :
    other.target? (around front.length id) = target.map (around front.length) := by
  have hlabel : tree.label? id = some (.leaf (.jump key none)) := by
    rw [label?_eq, hnode, Option.map_some, hjump]
    rfl
  have hmore := htree.label?_around hother id
  have htarget : tree.target? id = target := by
    rw [Tree.target?, hnode, Option.bind_some, hjump]
    rfl
  rw [hlabel, hother.drawn.label?] at hmore
  rw [htree.drawn.label?] at hlabel
  rw [hother.target? _ key hmore, htree.find?_around hother hremark, ← htree.target? id key hlabel,
    htarget]

omit htree in
private theorem Spells.get?_place :
    ∃ span text, other.get? front.length = some ⟨span, .leaf (.comment text)⟩ := by
  obtain ⟨text, hcomment⟩ := hremark.label
  have hnoted : other.label? front.length = some (.leaf (.comment text)) := by
    rw [hother.drawn.label?, Sketch.labelAt?, Sketch.getElem?_withRemark_length, Option.map_some,
      hcomment]
  rw [label?_eq] at hnoted
  obtain ⟨⟨span, content⟩, hnode, hbare⟩ := Option.map_eq_some_iff.mp hnoted
  cases content with
  | block => contradiction
  | leaf leaf =>
    cases leaf <;> cases hbare
    exact ⟨span, text, hnode⟩

/-- A tree that says what is sketched, and one that says the same with a remark. -/
theorem Spells.remarked (hchoice : ∀ parent before previous after,
      tree.children parent = before ++ previous :: front.length :: after →
        tree.isChoice previous = true → tree.isChoice front.length = false) :
    tree.Remarked other front.length := by
  refine ⟨hremark.regular.length_pos, Spells.get?_place hother hremark, fun id => ?_,
    htree.find?_around hother hremark⟩
  have hlabel := htree.label?_around hother id
  have hbeside := htree.beside hother hremark hchoice id
  have hempty : tree.isScope id = false →
      (tree.children id = [] ↔ other.children (around front.length id) = []) :=
    htree.children_eq_nil_iff hother hremark
  rw [label?_eq, label?_eq] at hlabel
  rw [children_eq, children_eq] at hbeside hempty
  cases hnode : tree.get? id with
  | none =>
    rw [hnode] at hlabel
    rw [Option.map_eq_none_iff.mp hlabel]
    exact .none
  | some node =>
    rw [hnode] at hlabel
    obtain ⟨image, himage, hbare⟩ := Option.map_eq_some_iff.mp hlabel
    rw [hnode, himage] at hbeside hempty
    rw [himage]
    refine .some (.of_bare hbare hbeside (fun hscope => hempty ?_)
      fun key target aim hjump hto => ?_)
    · rw [Tree.isScope, hnode]
      exact hscope
    · rw [rel_remark_iff, ← htree.target?_around hother hremark hnode hjump, Tree.target?, himage,
        Option.bind_some, hto]
      rfl

end Spells
end Tree

private theorem Sketch.length_grow_le (entries : List Entry) (depth number : Nat)
    (growth : Growth) :
    (grow entries depth number growth).length ≤ entries.length + 1 := by
  rcases grow_cases entries depth number growth with ⟨_, hgrow⟩ | ⟨entry, hgrow, _⟩ |
    ⟨id, column, text, _, _, hgrow⟩
  · rw [hgrow]
    exact Nat.le_succ _
  · rw [hgrow, List.length_append, List.length_singleton]
  · rw [hgrow, List.length_modify]
    exact Nat.le_succ _

section Parse

variable {options : Options} {lines : List String} {line extra : Line} {comment : String}
  {id : NodeId} {reading other : Reading} {script remarked : Script}

/-- With a comment in front of a line that adds a node, all lines are read, and the comment stands
in the sketch in front of that node. -/
theorem Reading.exists_remarked_of_creates (hfail : options.duplicates = .fail)
    (hread : read options .lenient lines = .ok reading)
    (hline : Line.at? lines line.number = some line)
    (hcreates : Progress.Creates options .lenient lines line id)
    (hextra : Line.read? line.number comment.toList = some extra)
    (hmarker : extra.marker = .comment) (hdepth : extra.depth = line.depth) :
    ∃ other, read options .lenient
        (lines.take line.number ++ comment :: lines.drop line.number) = .ok other ∧
      Remarked (stage options .lenient lines line.number)
        ((stage options .lenient lines line.number).remarkOf extra) reading other := by
  have hlt := Line.lt_length_of_at? hline
  have hfront := read_take hread line.number
  have hcount := lineCount_stage hread (Nat.le_of_lt hlt)
  obtain ⟨hsize, hid⟩ := (Progress.creates_iff hread).mp hcreates
  obtain ⟨text, htext, hparsed⟩ := Option.bind_eq_some_iff.mp hline
  have hreads := (feed_eq_ok_iff hfail).mp (feed_stage hread htext)
  have hrest : (lines.drop (line.number + 1)).foldlM (feed options .lenient)
      (stage options .lenient lines (line.number + 1)) = .ok reading := by
    have hsplit := hread
    have htake := read_take hread (line.number + 1)
    rw [read] at htake
    rw [← List.take_append_drop (line.number + 1) lines, read, List.foldlM_append, htake] at hsplit
    exact hsplit
  rw [← hcount] at hextra hparsed
  obtain ⟨between, after, hcomment, hafter, hremarked⟩ := exists_remarked hfront hextra hmarker
    hparsed hdepth hreads (Nat.lt_of_le_of_lt hsize hid)
  obtain ⟨last, hlast, hdone⟩ := hremarked.exists_foldlM hfail rfl rfl hrest
  refine ⟨last, ?_, hdone⟩
  have hdrop : lines.drop line.number = text :: lines.drop (line.number + 1) := by
    rw [List.drop_eq_getElem_cons hlt, (List.getElem?_eq_some_iff.mp htext).2]
  rw [read] at hfront
  rw [hdrop, read, List.foldlM_append, hfront]
  exact foldlM_cons_eq_ok_iff.mpr ⟨between, (feed_eq_ok_iff hfail).mpr hcomment,
    foldlM_cons_eq_ok_iff.mpr ⟨after, (feed_eq_ok_iff hfail).mpr hafter, hlast⟩⟩

theorem Progress.Creates.eq_length (hread : Reading.read options .lenient lines = .ok reading)
    (hline : Line.at? lines line.number = some line)
    (hcreates : Creates options .lenient lines line id) :
    id = (Reading.stage options .lenient lines line.number).entries.length := by
  obtain ⟨hsize, hid⟩ := (creates_iff hread).mp hcreates
  rcases Reading.stage_cases hread (Line.lt_length_of_at? hline) with
    ⟨_, hnext⟩ | ⟨_, _, ⟨_, hnext⟩ | ⟨_, hnext⟩⟩
  · rw [hnext] at hid
    exact absurd hid (Nat.not_lt.mpr hsize)
  · rw [hnext] at hid
    exact absurd hid (Nat.not_lt.mpr hsize)
  · have hle := Sketch.length_grow_le
      (Reading.stage options .lenient lines line.number).entries
    rw [hnext, Reading.absorb] at hid
    exact Nat.le_antisymm (Nat.le_of_lt_succ (Nat.lt_of_lt_of_le hid (hle _ _ _))) hsize

theorem Progress.Creates.levelAt (hread : Reading.read options .lenient lines = .ok reading)
    (hline : Line.at? lines line.number = some line)
    (hcreates : Creates options .lenient lines line id)
    (hplain : Sketch.isScopeAt reading.entries id = false) :
    Sketch.levelAt reading.entries id =
      Sketch.ground (Reading.stage options .lenient lines line.number).entries + line.depth := by
  have hlt := Line.lt_length_of_at? hline
  have hcontinues := Reading.continues_stage hread (Nat.succ_le_of_lt hlt) (Nat.le_refl _)
  rw [Reading.stage_length hread] at hcontinues
  obtain ⟨hsize, hid⟩ := (creates_iff hread).mp hcreates
  rw [hcontinues.isScopeAt id hid] at hplain
  rw [hcontinues.levelAt id hid]
  rcases Reading.stage_cases hread hlt with
    ⟨_, hnext⟩ | ⟨found, hfound, ⟨_, hnext⟩ | ⟨_, hnext⟩⟩
  · rw [hnext] at hid
    exact absurd hid (Nat.not_lt.mpr hsize)
  · rw [hnext] at hid
    exact absurd hid (Nat.not_lt.mpr hsize)
  · obtain rfl := Option.some.inj (hline.symm.trans hfound)
    rw [hnext, Reading.absorb] at hid hplain ⊢
    obtain ⟨entry, hgrow, heq, hentry, _⟩ := Sketch.exists_entry_of_grow hsize hid hplain
    show Sketch.levelAt (Sketch.grow _ _ _ _) id = _
    rw [hgrow, heq, Sketch.levelAt_length, hentry]

theorem Reading.isRemark (hread : read options .lenient lines = .ok reading)
    (hline : Line.at? lines line.number = some line)
    (hcreates : Progress.Creates options .lenient lines line id)
    (hkind : Sketch.isScopeAt reading.entries id = false ∨ line.depth = 1)
    (hdepth : extra.depth = line.depth) {back : List Entry} (hback : back ≠ [])
    (hentries : reading.entries = (stage options .lenient lines line.number).entries ++ back) :
    Sketch.IsRemark (stage options .lenient lines line.number).entries
      ((stage options .lenient lines line.number).remarkOf extra) back := by
  have hfront := (Progress.matches_stage hread line.number).draft.regular
  have hregular := (Progress.matches_stage hread lines.length).draft.regular
  rw [stage_length hread] at hregular
  have hplace := hcreates.eq_length hread hline
  have hlevel : ((stage options .lenient lines line.number).remarkOf extra).level =
      Sketch.ground (stage options .lenient lines line.number).entries + extra.depth := rfl
  refine ⟨hback, hfront, ⟨_, rfl⟩, ?_⟩
  rw [← hentries, ← hplace, hlevel, hdepth]
  cases hscope : Sketch.isScopeAt reading.entries id with
  | false => exact .inl (hcreates.levelAt hread hline hscope)
  | true =>
    have hone : line.depth = 1 := by
      rcases hkind with hplain | hone
      · rw [hscope] at hplain
        contradiction
      · exact hone
    have hground := Sketch.Regular.ground_le_one (stage options .lenient lines line.number).entries
    rw [hregular.section_level id (hplace ▸ hfront.length_pos) hscope, hone]
    omega

theorem diagnostics_remarked {front : Reading} {remark : Entry}
    (h : Reading.Remarked front remark reading other)
    (hscript : script.diagnostics = reading.diagnostics.toList ++
      reading.links.toList.filterMap (Link.complaint? script.tree))
    (hremarked : remarked.diagnostics = other.diagnostics.toList ++
      other.links.toList.filterMap (Link.complaint? remarked.tree))
    (hfind : ∀ key, (remarked.tree.find? key).isSome = (script.tree.find? key).isSome) :
    remarked.diagnostics =
      script.diagnostics.map (Diagnostic.renumbered (around front.lineCount)) := by
  have hsettles (diagnostic : Diagnostic) :
      remarked.tree.settles (diagnostic.renumbered (around front.lineCount)) =
        script.tree.settles diagnostic := by
    obtain ⟨line, column, cause⟩ := diagnostic
    cases cause with
    | unknownScope key => exact hfind key
    | _ => rfl
  rw [hremarked, hscript, Link.filterMap_complaint?, Link.filterMap_complaint?, h.complaints,
    h.diagnostics, List.map_append, List.filter_map]
  simp only [Function.comp_def, hsettles]

end Parse

/-- Comments are inert: with a comment in front of a line that adds a node, at the depth of that
line, a script is parsed with the same diagnostics, one line further down from there on, and every
session is the same, whatever the host answers, wherever it starts and whatever is picked. The
comment must not part two choices, and the line must not be an indented section line. -/
theorem settles_iff_of_comment {lines : List String} {line extra : Line} {comment : String}
    {id : NodeId} {script : Script} (h : (parseLines {} .lenient lines).result = .ok script)
    (hline : Line.at? lines line.number = some line)
    (hcreates : Progress.Creates {} .lenient lines line id)
    (hkind : script.tree.isScope id = false ∨ line.depth = 1)
    (hchoice : ∀ parent before previous after,
      script.tree.children parent = before ++ previous :: id :: after →
        script.tree.isChoice previous = true → script.tree.isChoice id = false)
    (hextra : Line.read? line.number comment.toList = some extra)
    (hmarker : extra.marker = .comment) (hdepth : extra.depth = line.depth) :
    ∃ remarked, (parseLines {} .lenient
        (lines.take line.number ++ comment :: lines.drop line.number)).result = .ok remarked ∧
      remarked.diagnostics =
        script.diagnostics.map (Diagnostic.renumbered (around line.number)) ∧
      ∀ host start requests outcome,
        Playback.Settles host remarked.tree start requests outcome ↔
          Playback.Settles host script.tree start requests outcome := by
  obtain ⟨reading, hread, hspells, _⟩ := exists_spells_of_ok h
  obtain ⟨other, hother, hremarked⟩ :=
    Reading.exists_remarked_of_creates rfl hread hline hcreates hextra hmarker hdepth
  obtain ⟨remarked, hresult⟩ := exists_ok_of_read hother
  obtain ⟨_, hsame, hsays, _⟩ := exists_spells_of_ok hresult
  obtain rfl := Except.ok.inj (hother.symm.trans hsame)
  obtain ⟨_, hfirst, hsettled⟩ := settled_of_ok h
  obtain rfl := Except.ok.inj (hread.symm.trans hfirst)
  obtain ⟨_, hsecond, hmore⟩ := settled_of_ok hresult
  obtain rfl := Except.ok.inj (hother.symm.trans hsecond)
  have hcount := Reading.lineCount_stage hread (Nat.le_of_lt (Line.lt_length_of_at? hline))
  obtain ⟨back, hback, hentries, hwith⟩ := hremarked.entries
  rw [hspells.drawn.isScope] at hkind
  have hremark := Reading.isRemark hread hline hcreates hkind hdepth hback hentries
  rw [hentries] at hspells
  rw [hwith] at hsays
  rw [hcreates.eq_length hread hline] at hchoice
  have htree := hspells.remarked hsays hremark hchoice
  have hdiagnostics := diagnostics_remarked hremarked hsettled.diagnostics_lenient
    hmore.diagnostics_lenient fun key => by rw [htree.find?, Option.isSome_map]
  rw [hcount] at hdiagnostics
  exact ⟨remarked, hresult, hdiagnostics, htree.settles_iff⟩

/-- A comment that becomes the first line of the body of a command, in front of a jump that leads
nowhere. -/
theorem settles_iff_of_commented_body :
    let lines := ["= a", "* stay", "\t# check", "\t\tyes", "* go", "\t-> b"]
    let line : Line := ⟨3, ['\t', '\t'], .text, "yes".toList⟩
    let extra : Line := ⟨3, ['\t', '\t'], .comment, " aside".toList⟩
    let host : Host := ⟨fun _ _ _ => true⟩
    let told : List Reply × List Event := ([.stepped true, .done, .stepped true],
      [.offered [⟨"stay", false⟩, ⟨"go", false⟩], .evaluated "check" true true, .line "yes"])
    ∃ script remarked, (parseLines {} .lenient lines).result = .ok script ∧
      Line.at? lines line.number = some line ∧ Progress.Creates {} .lenient lines line 4 ∧
      script.tree.isScope 4 = false ∧ script.tree.isChoice 4 = false ∧
      Line.read? line.number "\t\t// aside".toList = some extra ∧
      (parseLines {} .lenient
        (lines.take line.number ++ "\t\t// aside" :: lines.drop line.number)).result =
          .ok remarked ∧
      script.diagnostics = [⟨5, 3, .unknownScope "b"⟩] ∧
      remarked.diagnostics = [⟨6, 3, .unknownScope "b"⟩] ∧
      Playback.Settles host script.tree (some "a") [.step, .choose 0, .step] (.ok told) ∧
      Playback.Settles host remarked.tree (some "a") [.step, .choose 0, .step] (.ok told) := by
  intro lines line extra host told
  have hline : Line.at? lines line.number = some line := by decide +kernel
  have hextra : Line.read? line.number "\t\t// aside".toList = some extra := by decide +kernel
  have hcreates : Progress.Creates {} .lenient lines line 4 :=
    ⟨by decide +kernel, by decide +kernel⟩
  have hparsed : (parseLines {} .lenient lines).result.toOption.map (fun script =>
      (script.tree.isScope 4, script.tree.isChoice 4, script.diagnostics)) =
      some (false, false, [⟨5, 3, .unknownScope "b"⟩]) := by decide +kernel
  have hplayed : (parseLines {} .lenient lines).result.toOption.map (fun script =>
      (Playback.session host script.tree (some "a")
        ([Request.step, .choose 0, .step].map (Request.call 9))).toOption) =
      some (some told) := by decide +kernel
  obtain ⟨script, hscript, hfound⟩ := exists_ok_of_map_toOption hparsed
  obtain ⟨_, hsame, hsession⟩ := exists_ok_of_map_toOption hplayed
  obtain rfl := Except.ok.inj (hscript.symm.trans hsame)
  obtain ⟨hscope, hrest⟩ := Prod.mk.inj hfound
  obtain ⟨hplain, hdiagnostics⟩ := Prod.mk.inj hrest
  obtain ⟨remarked, hresult, hmoved, hsettles⟩ := settles_iff_of_comment hscript hline hcreates
    (.inl hscope) (fun _ _ _ _ _ _ => hplain) hextra rfl rfl
  obtain ⟨outcome, houtcome, htold⟩ := exists_ok_of_map_toOption (f := id)
    ((congrFun Option.map_id _).trans hsession)
  have hsettled : Playback.Settles host script.tree (some "a") [.step, .choose 0, .step]
      (.ok told) := by
    refine ⟨9, houtcome.trans (congrArg Except.ok htold), fun other hother => ?_⟩
    obtain rfl := Except.ok.inj hother
    decide
  refine ⟨script, remarked, hscript, hline, hcreates, hscope, hplain, hextra, hresult,
    hdiagnostics, ?_, hsettled, (hsettles ..).mpr hsettled⟩
  rw [hmoved, hdiagnostics]
  rfl

end Dialogue
