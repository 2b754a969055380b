import Dialogue.Proofs.Parse.Reading

/-! From the lines to the script. Names lead to the first section that has them, and after
linking every jump leads where its name leads. -/
namespace Dialogue

namespace Reading

variable {options : Options} {checker : Checker} {lines : List String} {reading next : Reading}

theorem feed_cases {text : String} (h : reading.feed options checker text = .ok next) :
    (Line.read? reading.lineCount text.toList = none ∧
      next = { reading with lineCount := reading.lineCount + 1 }) ∨
    ∃ line, Line.read? reading.lineCount text.toList = some line ∧
      ((reading.room < line.depth ∧
        next = { reading with
          lineCount := reading.lineCount + 1
          diagnostics :=
            reading.diagnostics.push (line.complaint line.column .tooDeep) }) ∨
      (line.depth ≤ reading.room ∧ (reading.effect options checker line).failure = none ∧
        next = { reading with lineCount := reading.lineCount + 1 }.absorb line
          (reading.effect options checker line))) := by
  simp only [feed] at h
  cases hline : Line.read? reading.lineCount text.toList with
  | none =>
    rw [hline] at h
    exact .inl ⟨rfl, (Except.ok.inj h).symm⟩
  | some line =>
    rw [hline] at h
    refine .inr ⟨line, rfl, ?_⟩
    simp only [place] at h
    split at h
    next hdeep => exact .inl ⟨hdeep, (Except.ok.inj h).symm⟩
    next hfits =>
      split at h
      next => contradiction
      next hfailure => exact .inr ⟨Nat.le_of_not_lt hfits, hfailure, (Except.ok.inj h).symm⟩

theorem foldlM_of_invariant {P : Reading → Prop}
    (hfeed : ∀ reading, ∀ text ∈ lines, ∀ next, P reading →
      reading.feed options checker text = .ok next → P next)
    (hstart : P reading) (h : lines.foldlM (feed options checker) reading = .ok next) : P next := by
  induction lines generalizing reading with
  | nil => exact Except.ok.inj h ▸ hstart
  | cons text rest ih =>
    rw [List.foldlM_cons] at h
    cases hfed : reading.feed options checker text with
    | error => rw [hfed] at h; contradiction
    | ok middle =>
      rw [hfed] at h
      refine ih (fun reading other hother => ?_) (hfeed reading text ?_ middle hstart hfed) h
      · exact hfeed reading other (List.mem_cons_of_mem text hother)
      · exact List.mem_cons_self

/-- What a reading starts with and keeps with every line is true of any reading. -/
theorem read_of_invariant {P : Reading → Prop}
    (hfeed : ∀ reading, ∀ text ∈ lines, ∀ next, P reading →
      reading.feed options checker text = .ok next → P next)
    (hstart : P {}) (h : read options checker lines = .ok reading) : P reading :=
  foldlM_of_invariant hfeed hstart h

end Reading

def Entry.jump? : Entry → Option String
  | ⟨_, _, _, .leaf (.jump key _)⟩ => some key
  | _ => none

@[simp] theorem Entry.jump?_extend (text : String) (entry : Entry) :
    (entry.extend text).jump? = entry.jump? := by
  obtain ⟨level, line, column, label⟩ := entry
  cases label with
  | leaf => rfl
  | block block children => cases block <;> rfl

namespace Sketch

def jumps (entries : List Entry) : List (Nat × String) :=
  (entries.map Entry.jump?).zipIdx.filterMap fun jump => jump.1.map fun key => (jump.2, key)

theorem jumps_append (entries : List Entry) (entry : Entry) :
    jumps (entries ++ [entry]) =
      jumps entries ++ (entry.jump?.map fun key => (entries.length, key)).toList := by
  simp only [jumps, List.map_append, List.zipIdx_append, List.filterMap_append, List.length_map]
  cases hjump : entry.jump? <;> simp [hjump]

private theorem jumps_extend (entries : List Entry) (id : Nat) (text : String) :
    jumps (entries.modify id (Entry.extend text)) = jumps entries := by
  have hsame : (entries.modify id (Entry.extend text)).map Entry.jump? =
      entries.map Entry.jump? := by
    refine List.ext_getElem? fun other => ?_
    rw [List.getElem?_map, List.getElem?_map, getElem?_extend]
    split
    · simp [Function.comp_def]
    · rfl
  rw [jumps, hsame, jumps]

theorem mem_jumps_iff {entries : List Entry} {id : Nat} {key : String} :
    (id, key) ∈ jumps entries ↔ entries[id]?.bind Entry.jump? = some key := by
  simp only [jumps, List.mem_filterMap, Prod.exists, List.mem_zipIdx_iff_getElem?,
    List.getElem?_map, Option.map_eq_some_iff, Option.bind_eq_some_iff, Prod.mk.injEq]
  constructor
  · rintro ⟨_, _, ⟨entry, hentry, rfl⟩, found, hkey, rfl, rfl⟩
    exact ⟨entry, hentry, hkey⟩
  · rintro ⟨entry, hentry, hkey⟩
    exact ⟨_, _, ⟨entry, hentry, rfl⟩, key, hkey, rfl, rfl⟩

theorem mem_jumps_of_labelAt? {entries : List Entry} {id : Nat} {key : String}
    {target : Option NodeId} (h : labelAt? entries id = some (.leaf (.jump key target))) :
    (id, key) ∈ jumps entries := by
  rw [mem_jumps_iff]
  obtain ⟨⟨level, line, column, _⟩, hentry, rfl⟩ := Option.map_eq_some_iff.mp h
  rw [hentry]
  rfl

theorem key?_of_labelAt? {entries : List Entry} {id : Nat} {key : Option String}
    {children : List NodeId} (h : labelAt? entries id = some (.block (.scope key) children)) :
    entries[id]?.bind Entry.key? = key := by
  obtain ⟨⟨level, line, column, _⟩, hentry, rfl⟩ := Option.map_eq_some_iff.mp h
  rw [hentry]
  rfl

theorem lookup_names (entries : List Entry) (key : String) :
    (names entries).lookup key = entries.findIdx? (·.key? == some key) := by
  rw [← entries.reverse_reverse]
  induction entries.reverse with
  | nil => rfl
  | cons entry before ih =>
    rw [List.reverse_cons, names_append, List.findIdx?_append, ← ih]
    cases hkey : entry.key? with
    | none => simp [declare, hkey]
    | some name =>
      by_cases hname : name = key
      · subst hname
        cases hfound : (names before.reverse).lookup name <;>
          simp [declare, hkey, hfound, List.lookup_append]
      · have hother : (key == name) = false := beq_false_of_ne (Ne.symm hname)
        cases hfound : (names before.reverse).lookup name <;>
          simp [declare, hkey, hfound, hname, List.lookup_append, List.lookup_cons, hother]

private theorem jumps_grow (entries : List Entry) (depth number column : Nat) (growth : Growth) :
    jumps (grow entries depth number growth) = jumps entries ++
      (growth.links entries.length number column).map fun link => (link.node, link.key) := by
  cases growth with
  | nothing => simp [grow, Growth.links]
  | leaf _ leaf =>
    rw [grow, jumps_append]
    cases leaf <;> rfl
  | choice =>
    rw [grow, jumps_append]
    rfl
  | scope =>
    rw [grow, jumps_append]
    rfl
  | command _ text =>
    simp only [grow]
    split
    · rw [jumps_extend]
      simp [Growth.links]
    · rw [jumps_append]
      rfl

end Sketch

theorem Reading.links_eq {options : Options} {checker : Checker} {lines : List String}
    {reading : Reading} (h : read options checker lines = .ok reading) :
    (reading.links.toList.map fun link => (link.node, link.key)) =
      Sketch.jumps reading.entries := by
  refine read_of_invariant
    (P := fun reading => (reading.links.toList.map fun link => (link.node, link.key)) =
      Sketch.jumps reading.entries) ?_ rfl h
  intro reading text _ next hlinks hfeed
  rcases feed_cases hfeed with ⟨_, rfl⟩ | ⟨line, _, ⟨_, rfl⟩ | ⟨_, _, rfl⟩⟩
  · exact hlinks
  · exact hlinks
  · simp only [absorb]
    rw [Sketch.jumps_grow _ _ _ line.restColumn, ← hlinks, Array.toList_appendList,
      List.map_append]

namespace Link

variable {tree : Tree} {id : NodeId} {key : String}

@[simp] theorem find?_resolve (tree : Tree) (link : Link) (key : String) :
    (link.resolve tree).find? key = tree.find? key := by
  rw [Tree.find?, Tree.find?, names_resolve]

private theorem target?_resolve_of_ne {link : Link} (hne : link.node ≠ id) :
    (link.resolve tree).target? id = tree.target? id := by
  unfold resolve
  split
  · rw [Tree.target?, Tree.target?, Tree.get?_modify, if_neg hne]
  · rfl

private theorem target?_resolve {link : Link}
    (hlabel : tree.label? link.node = some (.leaf (.jump key none))) :
    (link.resolve tree).target? link.node =
      (tree.find? link.key).or (tree.target? link.node) := by
  unfold resolve
  cases tree.find? link.key with
  | none => rfl
  | some target =>
    show (tree.modify link.node (Node.aim target)).target? link.node = some target
    rw [Tree.label?_eq] at hlabel
    obtain ⟨⟨span, content⟩, hnode, hbare⟩ := Option.map_eq_some_iff.mp hlabel
    rw [Tree.target?, Tree.get?_modify, if_pos rfl, hnode]
    cases content with
    | block => contradiction
    | leaf leaf =>
      cases leaf with
      | jump => rfl
      | line => cases hbare
      | comment => cases hbare
      | back => cases hbare

theorem target?_foldl_resolve (links : List Link)
    (hlabel : tree.label? id = some (.leaf (.jump key none)))
    (hkeys : ∀ link ∈ links, link.node = id → link.key = key)
    (htarget : tree.target? id = none ∨ tree.target? id = tree.find? key)
    (hlinked : (∃ link ∈ links, link.node = id) ∨ tree.target? id = tree.find? key) :
    (links.foldl (fun tree link => link.resolve tree) tree).target? id = tree.find? key := by
  induction links generalizing tree with
  | nil =>
    rcases hlinked with ⟨_, hmem, _⟩ | hdone
    · contradiction
    · exact hdone
  | cons link rest ih =>
    have hlabel' : (link.resolve tree).label? id = some (.leaf (.jump key none)) := by
      rwa [Tree.label?, mark?_resolve, ← Tree.label?]
    have hrest (other : Link) (hother : other ∈ rest) := hkeys other (List.mem_cons_of_mem _ hother)
    rw [List.foldl_cons, ← find?_resolve tree link]
    by_cases heq : link.node = id
    · subst heq
      have hkey := hkeys link List.mem_cons_self rfl
      have hresolved : (link.resolve tree).target? link.node =
          (link.resolve tree).find? key := by
        rw [target?_resolve hlabel, find?_resolve, hkey]
        cases hfind : tree.find? key with
        | some => rfl
        | none =>
          rw [hfind] at htarget
          rcases htarget with hnone | hnone <;> rw [hnone] <;> rfl
      exact ih hlabel' hrest (.inr hresolved) (.inr hresolved)
    · have hsame : (link.resolve tree).target? id = tree.target? id := target?_resolve_of_ne heq
      refine ih hlabel' hrest ?_ ?_
      · rwa [hsame, find?_resolve]
      · rw [hsame, find?_resolve]
        rcases hlinked with ⟨other, hother, hnode⟩ | hdone
        · have hin := (List.mem_cons.mp hother).resolve_left fun h => heq (h ▸ hnode)
          exact .inl ⟨other, hin, hnode⟩
        · exact .inr hdone

end Link

namespace Progress

variable {options : Options} {checker : Checker} {lines : List String} {progress : Progress}
  {reading : Reading}

theorem drawn_foldl_resolve {tree : Tree} {entries : List Entry} (h : tree.Drawn entries)
    (links : List Link) :
    (links.foldl (fun tree link => link.resolve tree) tree).Drawn entries ∧
      (links.foldl (fun tree link => link.resolve tree) tree).names = tree.names := by
  induction links generalizing tree with
  | nil => exact ⟨h, rfl⟩
  | cons link rest ih =>
    obtain ⟨hdrawn, hnames⟩ :=
      ih (h.congr (Link.size_resolve tree link) (Link.children_resolve tree link)
        (Link.mark?_resolve tree link))
    exact ⟨hdrawn, hnames.trans (Link.names_resolve ..)⟩

theorem Matches.linked (h : progress.Matches reading)
    (hlinks : (reading.links.toList.map fun link => (link.node, link.key)) =
      Sketch.jumps reading.entries) :
    progress.linked.Drawn reading.entries ∧
      progress.linked.names = Sketch.names reading.entries ∧
      ∀ id key, Sketch.labelAt? reading.entries id = some (.leaf (.jump key none)) →
        progress.linked.target? id = progress.linked.find? key := by
  have hdrawn : progress.closed.Drawn reading.entries :=
    (Draft.drawn_closeAll h.draft.drawn _).close _ _
  have hnames : progress.closed.names = Sketch.names reading.entries :=
    (Draft.names_closeAll ..).trans h.draft.names
  have htargets (id : NodeId) : progress.closed.target? id = none :=
    ((Tree.target?_close ..).trans (Draft.target?_closeAll ..)).trans (h.draft.untargeted id)
  have heq : progress.linked =
      progress.links.toList.foldl (fun tree link => link.resolve tree) progress.closed :=
    (Array.foldl_toList ..).symm
  rw [heq, h.links]
  obtain ⟨hlinked, hsame⟩ := drawn_foldl_resolve hdrawn reading.links.toList
  refine ⟨hlinked, hsame.trans hnames, fun id key hlabel => ?_⟩
  have hjump : (id, key) ∈ reading.links.toList.map fun link => (link.node, link.key) :=
    hlinks ▸ Sketch.mem_jumps_of_labelAt? hlabel
  obtain ⟨link, hlink, hpair⟩ := List.mem_map.mp hjump
  rw [Link.target?_foldl_resolve _ ((hdrawn.label? id).trans hlabel) ?_ (.inl (htargets id))
    (.inl ⟨link, hlink, congrArg Prod.fst hpair⟩)]
  · rw [Tree.find?, Tree.find?, hsame]
  · intro other hother hnode
    have hmem : (other.node, other.key) ∈ Sketch.jumps reading.entries :=
      hlinks ▸ List.mem_map_of_mem (f := fun link : Link => (link.node, link.key)) hother
    rw [hnode, Sketch.mem_jumps_iff] at hmem
    obtain ⟨⟨level, line, column, _⟩, hentry, rfl⟩ := Option.map_eq_some_iff.mp hlabel
    rw [hentry] at hmem
    exact (Option.some.inj hmem).symm

end Progress
end Dialogue
