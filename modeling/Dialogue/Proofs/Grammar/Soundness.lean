import Dialogue.Proofs.Grammar.Folding
import Dialogue.Proofs.Parse.Lenient

/-! Whatever is read is a document. Lines that are read keep the nodes sound, one after
another, and sound nodes can be folded up. -/
namespace Dialogue

open Sketch (Grown Shut keys)

theorem Block.WellFormed.more {first text : String} (h : (Block.command first).WellFormed)
    (hclean : Text.Clean text.toList) (hne : text ≠ "") :
    (Block.command (first ++ "\n" ++ text)).WellFormed := by
  obtain ⟨pieces, hpieces, hfirst, hall⟩ := h
  refine ⟨pieces ++ [text.toList], by simp, ?_, fun piece hpiece => ?_⟩
  · rw [Text.intercalate_concat hpieces, ← hfirst]
    simp
  · rcases List.mem_append.mp hpiece with hold | hnew
    · exact hall piece hold
    · obtain rfl := List.mem_singleton.mp hnew
      exact ⟨hclean, Text.toList_ne_nil hne⟩

private theorem Block.wellFormed_command {text : String} (hclean : Text.Clean text.toList)
    (hne : text ≠ "") : (Block.command text).WellFormed := by
  refine ⟨[text.toList], by simp, by simp, fun piece hpiece => ?_⟩
  obtain rfl := List.mem_singleton.mp hpiece
  exact ⟨hclean, Text.toList_ne_nil hne⟩

/-- Nodes that can be written down and are told apart. -/
structure Sound (nodes : List (Nat × Content)) : Prop where
  wellFormed : ∀ node ∈ nodes, node.2.WellFormed
  apart : nodes.IsChain fun node next =>
    node.2.isCommand = true → next.2.isCommand = true → node.1 ≠ next.1
  nodup : (keys nodes).Nodup

namespace Sound

variable {nodes more : List (Nat × Content)} {node : Nat × Content} {level : Nat}
  {growth : Growth}

private theorem append (h : Sound nodes) (hnode : node.2.WellFormed)
    (hapart : node.2.isCommand = true → Shut nodes node.1)
    (hfree : ∀ key, node.2.key? = some key → key ∉ keys nodes) : Sound (nodes ++ [node]) := by
  refine ⟨fun other hother => ?_, ?_, ?_⟩
  · rcases List.mem_append.mp hother with hold | hnew
    · exact h.wellFormed other hold
    · exact List.mem_singleton.mp hnew ▸ hnode
  · refine List.isChain_append.mpr ⟨h.apart, .singleton node, fun last hlast next hnext => ?_⟩
    obtain rfl := Option.some.inj hnext
    intro hcommand hsame hlevel
    obtain ⟨level, content⟩ := last
    obtain ⟨text, children, rfl⟩ := Content.exists_eq_command hcommand
    obtain rfl : level = node.1 := hlevel
    exact hapart hsame text children hlast
  · rw [Sketch.keys_append, Sketch.keys_cons]
    refine List.nodup_append.mpr ⟨h.nodup, ?_, ?_⟩
    · cases hkey : node.2.key? <;> simp [keys]
    · intro key hold other hnew heq
      subst heq
      rw [keys, List.filterMap_nil, List.append_nil, Option.mem_toList] at hnew
      exact hfree key hnew hold

theorem grown (h : Sound nodes) (hgrown : Grown level nodes growth more)
    (hgrowth : growth.WellFormed)
    (hfree : ∀ column key declared, growth = .scope column key declared → key ∉ keys nodes) :
    Sound more := by
  cases hgrown with
  | nothing => exact h
  | leaf column leaf =>
    have hleaf : leaf.unaimed.WellFormed := by
      cases leaf with
      | jump => exact ⟨hgrowth.1, hgrowth.2.1, rfl⟩
      | line => exact hgrowth
      | comment => exact hgrowth
      | back => trivial
    exact h.append hleaf nofun nofun
  | choice column text condition => exact h.append ⟨hgrowth, rfl⟩ nofun nofun
  | scope column key declared =>
    refine h.append ⟨fun name hname => ?_, rfl⟩ nofun fun name hname => ?_
    · exact Option.some.inj hname ▸ hgrowth
    · exact Option.some.inj hname ▸ hfree column key declared rfl
  | command column text hshut =>
    exact h.append ⟨Block.wellFormed_command hgrowth.1 hgrowth.2, rfl⟩ (fun _ => hshut) nofun
  | @more column text before first children hnodes =>
    subst hnodes
    obtain ⟨hbefore, _, hlast⟩ := List.isChain_append.mp h.apart
    obtain ⟨hfirst, rfl⟩ := h.wellFormed _ (List.mem_append_right _ List.mem_cons_self)
    refine ⟨fun other hother => ?_, ?_, ?_⟩
    · rcases List.mem_append.mp hother with hold | hnew
      · exact h.wellFormed other (List.mem_append_left _ hold)
      · rw [List.mem_singleton.mp hnew]
        exact ⟨hfirst.more hgrowth.1 hgrowth.2, rfl⟩
    · refine List.isChain_append.mpr ⟨hbefore, .singleton _, fun other hother next hnext => ?_⟩
      obtain rfl := Option.some.inj hnext
      exact hlast other hother (level, .block (.command first) []) rfl
    · have hnodup := h.nodup
      rw [Sketch.keys_append] at hnodup ⊢
      exact hnodup

end Sound

namespace Reading

variable {checker : Checker} {lines : List String} {reading : Reading}

/-- No section is opened twice, unless duplicates are to be reported. -/
theorem free_of_scope {options : Options} {line : Line} (hpolicy : options.duplicates = .fail)
    {column : Nat} {key : String} {declared : Bool}
    (hscope : (reading.effect options checker line).growth = .scope column key declared) :
    key ∉ keys (Sketch.shape reading.entries) := by
  unfold effect at hscope
  generalize heffect : line.effect options _ _ = effect at hscope
  have hacts := line.acts_effect options (reading.judge checker) reading.taken
  rw [heffect] at hacts
  cases hacts with
  | scope found name hmarker hname =>
    injection hscope with _ hkey _
    subst hkey
    rw [← Sketch.lookup_names_eq_none_iff]
    cases htaken : reading.taken name.text with
    | none => exact Option.map_eq_none_iff.mp htaken
    | some first =>
      -- A line that opens a section twice fails and opens nothing.
      simp only [Line.effect, hmarker, Line.scopeEffect, hname, htaken, hpolicy] at heffect
      split at heffect <;> simp at heffect
  | nothing => contradiction
  | rejected => contradiction
  | failed => contradiction
  | text => contradiction
  | comment => contradiction
  | jump => contradiction
  | back => contradiction
  | command => contradiction
  | choice => contradiction
  | guarded => contradiction

private theorem sound_feed {options : Options} (hpolicy : options.duplicates = .fail)
    {text : String} (htext : '\n' ∉ text.toList) {next : Reading}
    (h : Sound (Sketch.shape reading.entries))
    (hfeed : reading.feed options checker text = .ok next) :
    Sound (Sketch.shape next.entries) := by
  rcases feed_cases hfeed with ⟨_, rfl⟩ | ⟨line, hline, ⟨_, rfl⟩ | ⟨_, _, rfl⟩⟩
  · exact h
  · exact h
  · refine h.grown (Sketch.grown_grow ..) (Line.wellFormed_effect hline htext) ?_
    intro column key declared hscope
    exact free_of_scope hpolicy hscope

theorem sound_of_read {options : Options} (hpolicy : options.duplicates = .fail)
    {source : String} (h : read options checker (Text.lines source) = .ok reading) :
    Sound (Sketch.shape reading.entries) := by
  refine read_of_invariant (P := fun reading => Sound (Sketch.shape reading.entries))
    (fun reading text htext next hsound hfeed => ?_) ?_ h
  · refine sound_feed hpolicy ?_ hsound hfeed
    obtain ⟨line, hline, rfl⟩ := List.mem_map.mp htext
    rw [String.toList_ofList]
    exact Text.newline_notMem_splitLines source.toList line hline
  · refine ⟨fun node hnode => ?_, .singleton _, .nil⟩
    rw [List.mem_singleton.mp hnode]
    exact ⟨nofun, rfl⟩

end Reading

namespace Sketch

variable {entries : List Entry} {id : Nat}

theorem levelAt_eq_getElem (h : id < (shape entries).length) :
    levelAt entries id = (shape entries)[id].1 :=
  levelAt_eq_of_shape (List.getElem?_eq_getElem h)

theorem labelAt?_eq_getElem (h : id < (shape entries).length) :
    labelAt? entries id = some (shape entries)[id].2 :=
  labelAt?_eq_of_shape (List.getElem?_eq_getElem h)

private theorem isScopeAt_eq_getElem (h : id < (shape entries).length) :
    isScopeAt entries id = (shape entries)[id].2.isScope := by
  rw [isScopeAt, labelAt?_eq_getElem h]
  rfl

end Sketch

namespace Tree.Spells

variable {tree : Tree} {entries : List Entry}

theorem isChain_follows (h : tree.Spells entries) (hsound : Sound (Sketch.shape entries)) :
    (Sketch.shape entries).IsChain Follows := by
  rw [List.isChain_iff_getElem]
  intro id hid
  have hlt : id < (Sketch.shape entries).length := Nat.lt_of_succ_lt hid
  have hsize : id + 1 < tree.size := by
    rw [h.drawn.size_eq]
    simpa [Sketch.shape] using hid
  have hstep := h.drawn.shaped.level_le (id + 1) (Nat.succ_pos id) hsize
  rw [Nat.add_sub_cancel, Sketch.levelAt_eq_getElem hlt, Sketch.levelAt_eq_getElem hid] at hstep
  refine ⟨hstep, fun hdeep => ?_, List.isChain_iff_getElem.mp hsound.apart id hid⟩
  have hchild : id + 1 ∈ tree.children id := by
    refine (h.drawn.shaped.mem_children_iff _ _).mpr ⟨hsize, Nat.lt_succ_self id, ?_, ?_⟩
    · rw [Sketch.levelAt_eq_getElem hlt, Sketch.levelAt_eq_getElem hid]
      exact hdeep
    · intro node hlo hhi
      omega
  have hblock : tree.isBlock id = true := by
    cases hblock : tree.isBlock id with
    | true => rfl
    | false =>
      rw [Tree.children_of_not_isBlock hblock] at hchild
      contradiction
  rwa [h.drawn.isBlock, Sketch.isBlockAt, Sketch.labelAt?_eq_getElem hlt] at hblock

/-- Whatever is read is a document. -/
theorem exists_document (h : tree.Spells entries) (hsound : Sound (Sketch.shape entries)) :
    ∃ document : Document, document.WellFormed ∧ document.shape = Sketch.shape entries := by
  have hchain := h.isChain_follows hsound
  have hpos := h.regular.length_pos
  obtain ⟨first, rest, rfl⟩ := List.exists_cons_of_length_pos hpos
  obtain rfl : first = Entry.root := Option.some.inj h.regular.root
  have hlt {id : Nat} (hid : id < (Sketch.shape rest).length) :
      id + 1 < (Sketch.shape (Entry.root :: rest)).length := Nat.succ_lt_succ hid
  have hlevel {id : Nat} (hid : id < (Sketch.shape rest).length) :
      Sketch.levelAt (Entry.root :: rest) (id + 1) = (Sketch.shape rest)[id].1 :=
    Sketch.levelAt_eq_getElem (hlt hid)
  have hscope {id : Nat} (hid : id < (Sketch.shape rest).length) :
      Sketch.isScopeAt (Entry.root :: rest) (id + 1) = (Sketch.shape rest)[id].2.isScope :=
    Sketch.isScopeAt_eq_getElem (hlt hid)
  show ∃ document : Document, document.WellFormed ∧
    document.shape = (0, .block (.scope none) []) :: Sketch.shape rest
  refine Document.exists_of_chain rfl hchain (fun node hnode => ?_) ?_ hsound.nodup
  · obtain ⟨id, hid, rfl⟩ := List.getElem_of_mem hnode
    have hsize : id + 1 < tree.size := by
      rw [h.drawn.size_eq]
      simpa [Sketch.shape] using hid
    rw [← hlevel hid, ← hscope hid]
    refine ⟨h.drawn.shaped.level_pos (id + 1) (Nat.succ_pos id) hsize, ?_, fun hsome => ?_⟩
    · exact hsound.wellFormed _ (List.mem_cons_of_mem _ hnode)
    · refine ⟨h.regular.section_level (id + 1) (Nat.succ_pos id) hsome, ?_⟩
      obtain ⟨key, hkey⟩ := h.regular.section_key (id + 1) (Nat.succ_pos id) hsome
      rw [Sketch.labelAt?_eq_getElem (hlt hid)] at hkey
      rw [show (Sketch.shape rest)[id].2 = _ from Option.some.inj hkey]
      rfl
  · refine List.pairwise_iff_getElem.mpr fun id later hid hlater hless hsome hone => ?_
    rw [← hscope hid] at hsome
    rw [← hlevel hlater] at hone
    rw [← hscope hlater]
    refine h.regular.sections_last (id + 1) (later + 1) (Nat.succ_pos id) hsome ?_ ?_ hone
    · exact Nat.succ_lt_succ hless
    · simpa [Sketch.shape] using hlater

end Tree.Spells
end Dialogue
