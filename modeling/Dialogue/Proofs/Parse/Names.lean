import Mathlib.Data.List.Forall2
import Dialogue.Proofs.Grammar.Holds
import Dialogue.Proofs.Parse.Arena
import Dialogue.Proofs.Parse.Sections
import Dialogue.Proofs.Parse.Transcript

/-! Names. A name leads to the first section that has it, and a jump leads where its name leads,
wherever it stands. Jumps that lead nowhere and sections whose name is taken are reported, one
by one. -/
namespace Dialogue

def Tree.isLost (tree : Tree) (id : NodeId) : Bool :=
  (tree.get? id).any fun node => match node.content with
    | .leaf (.jump _ none) => true
    | _ => false

def Cause.isUnknown : Cause → Bool
  | unknownScope _ => true
  | _ => false

/-- A complaint about a jump that leads nowhere, right behind the marker of its line. -/
def Tree.Misses (tree : Tree) (lines : List String) (diagnostic : Diagnostic) (id : NodeId) :
    Prop :=
  ∃ line span key, Line.at? lines line.number = some line ∧ line.marker = .jump ∧
    span.line = line.number ∧ tree.get? id = some ⟨span, .leaf (.jump key none)⟩ ∧
    diagnostic = ⟨line.number, line.restColumn, .unknownScope key⟩

/-- What the names of a script are, and what is said about them. -/
structure Script.Named (script : Script) (options : Options) (lines : List String) : Prop where
  keyed : ∀ id ∈ script.tree.scopes, ∃ key, script.tree.key? id = some key ∧ key ≠ "" ∧
    Text.trim key.toList = key.toList
  find? : ∀ key, script.tree.find? key =
    script.tree.scopes.find? fun id => script.tree.key? id == some key
  jump : ∀ id span key target, script.tree.get? id = some ⟨span, .leaf (.jump key target)⟩ →
    target = script.tree.find? key ∧
      ∀ scope, target = some scope →
        script.tree.isScope scope = true ∧ script.tree.Within Tree.root scope
  unknown : List.Forall₂ (script.tree.Misses lines)
    (script.diagnostics.filter (·.cause.isUnknown))
    ((List.range script.tree.size).filter script.tree.isLost)
  failing : options.duplicates = .fail → (script.tree.scopes.map script.tree.key?).Nodup ∧
    ∀ diagnostic ∈ script.diagnostics, diagnostic.cause.isDuplicate = false
  duplicates : List.Forall₂
    (fun diagnostic id => ∃ key first, script.tree.key? id = some key ∧
      script.tree.find? key = some first ∧
      diagnostic = ⟨script.tree.lineOf id, script.tree.columnOf id,
        .duplicateScope key (script.tree.lineOf first)⟩)
    (script.diagnostics.filter (·.cause.isDuplicate))
    (script.tree.scopes.filter fun id => id ∉ script.tree.names.map Prod.snd)

theorem forall₂_filterMap {α β : Type} (f : α → Option β) (values : List α) :
    List.Forall₂ (fun image value => value ∈ values ∧ f value = some image)
      (values.filterMap f) (values.filter fun value => (f value).isSome) := by
  induction values with
  | nil => exact .nil
  | cons value rest ih =>
    have hrest := ih.imp fun _ _ h => And.imp_left (List.mem_cons_of_mem value) h
    cases himage : f value with
    | none =>
      rw [List.filterMap_cons_none himage, List.filter_cons_of_neg (by simp [himage])]
      exact hrest
    | some image =>
      rw [List.filterMap_cons_some himage, List.filter_cons_of_pos (by simp [himage])]
      exact .cons ⟨List.mem_cons_self, himage⟩ hrest

namespace Sketch

variable {entries : List Entry} {id : Nat} {key : String}

theorem keyAt?_eq (entries : List Entry) (id : Nat) :
    keyAt? entries id = (labelAt? entries id).bind Content.key? := by
  rw [keyAt?, labelAt?, Option.bind_map]
  exact congrArg _ (funext Entry.key?_eq)

theorem mem_names_iff : (key, id) ∈ names entries ↔ (names entries).lookup key = some id := by
  rw [← entries.reverse_reverse]
  induction entries.reverse with
  | nil => exact iff_of_false List.not_mem_nil nofun
  | cons entry before ih =>
    rw [List.reverse_cons, names_append]
    cases entry.key? with
    | none => exact ih
    | some name =>
      rw [declare]
      split
      next hfree =>
        rw [List.mem_append, ih, List.lookup_append, List.mem_singleton, Prod.mk.injEq]
        by_cases hname : key = name
        · subst hname
          rw [Option.isNone_iff_eq_none.mp hfree]
          simp [eq_comm]
        · have hother : (key == name) = false := beq_false_of_ne hname
          simp [hname, List.lookup_cons, hother]
      next => exact ih

end Sketch

namespace Tree.Pruned

variable {tree : Tree} {entries : List Entry} {rejected : List NodeId}

theorem key?_eq_keyAt? (h : tree.Pruned entries rejected) (id : Nat) :
    tree.key? id = Sketch.keyAt? entries id := by
  rw [Sketch.keyAt?_eq, ← h.label?, label?_eq, key?]
  cases tree.get? id with
  | none => rfl
  | some node =>
    obtain ⟨span, content⟩ := node
    cases content with
    | leaf leaf => cases leaf <;> rfl
    | block block children => cases block <;> rfl

private theorem columnOf_eq (h : tree.Pruned entries rejected) (id : Nat) :
    tree.columnOf id = Sketch.columnAt entries id := by
  rw [columnOf, h.mark?, Sketch.columnAt, Option.map_map]
  rfl

theorem scopes_eq (h : tree.Pruned entries rejected)
    (hkept : ∀ id ∈ rejected, Sketch.isScopeAt entries id = false)
    (hroot : ∀ id : Nat, id ≠ root → Sketch.isScopeAt entries id = true →
      IsParent (Sketch.levelAt entries) root id) :
    tree.scopes = Sketch.sections entries := by
  refine eq_of_sorted ((h.sorted root).filter _) (Sketch.sorted_sections entries) fun id => ?_
  rw [scopes, List.mem_filter, h.mem_children_iff, h.isScope, Sketch.mem_sections_iff]
  constructor
  · rintro ⟨⟨_, hparent, _⟩, hscope⟩
    obtain ⟨key, hlabel⟩ := h.regular.section_key id hparent.lt hscope
    refine ⟨key, ?_⟩
    rw [Sketch.keyAt?_eq, hlabel]
    rfl
  · rintro ⟨key, hkey⟩
    have hlt := Sketch.lt_length_of_keyAt? hkey
    have hscope : Sketch.isScopeAt entries id = true := by
      rw [Sketch.keyAt?_eq] at hkey
      obtain ⟨label, hlabel, hname⟩ := Option.bind_eq_some_iff.mp hkey
      rw [Sketch.isScopeAt, hlabel]
      cases label with
      | leaf => contradiction
      | block block children => cases block <;> first | rfl | contradiction
    have hne : id ≠ root := by
      rintro rfl
      rw [Sketch.keyAt?, root, h.regular.root] at hkey
      contradiction
    refine ⟨⟨hlt, hroot id hne hscope, fun hcut => ?_⟩, hscope⟩
    rw [hkept id hcut] at hscope
    contradiction

end Tree.Pruned

theorem Line.taken_eq_none_of_fail {options : Options} {judge : Query → Option Rejection}
    {taken : String → Option Nat} {line : Line} {column : Nat} {key : String} {declared : Bool}
    (hfail : options.duplicates = .fail)
    (h : (line.effect options judge taken).growth = .scope column key declared) :
    taken key = none := by
  obtain ⟨hmarker, hname⟩ := exists_excerpt_of_scope h
  simp only [effect, hmarker, scopeEffect, hname] at h
  split at h
  next => contradiction
  next =>
    cases htaken : taken key with
    | none => rfl
    | some first =>
      rw [htaken, hfail] at h
      contradiction

section Parse

variable {options : Options} {checker : Checker} {lines : List String} {script : Script}
  {reading : Reading} {asked : Array Query} {whole : Tree}

theorem Reading.lookup_names_of_fail (hfail : options.duplicates = .fail)
    (h : read options checker lines = .ok reading) :
    ∀ id key, Sketch.keyAt? reading.entries id = some key →
      (Sketch.names reading.entries).lookup key = some id := by
  refine read_of_invariant (P := fun reading => ∀ id key,
    Sketch.keyAt? reading.entries id = some key →
      (Sketch.names reading.entries).lookup key = some id) ?_ ?_ h
  · intro reading text _ next hold hfeed
    rcases feed_cases hfeed with ⟨_, rfl⟩ | ⟨line, _, ⟨_, rfl⟩ | ⟨_, _, rfl⟩⟩
    · exact hold
    · exact hold
    · refine Sketch.lookup_names_grow hold fun column key declared hgrowth => ?_
      exact Option.map_eq_none_iff.mp (Line.taken_eq_none_of_fail hfail hgrowth)
  · intro id key hkey
    cases id <;> contradiction

theorem Reading.filter_isDuplicate_of_fail (hfail : options.duplicates = .fail)
    (h : read options checker lines = .ok reading) :
    reading.diagnostics.toList.filter (·.cause.isDuplicate) = [] := by
  rw [filter_isDuplicate_diagnostics h, List.filterMap_eq_nil_iff]
  intro id hid
  obtain ⟨key, hkey⟩ := Sketch.mem_sections_iff.mp hid
  rw [Sketch.duplicate?, hkey, Option.bind_some, lookup_names_of_fail hfail h id key hkey,
    Option.bind_some, if_pos rfl]

theorem Reading.isUnknown_of_mem_diagnostics (h : read options checker lines = .ok reading) :
    ∀ diagnostic ∈ reading.diagnostics.toList, diagnostic.cause.isUnknown = false := by
  have hfound := Reading.exists_line_of_mem_diagnostics h (Nat.le_refl _)
  rw [Reading.stage_length h] at hfound
  intro diagnostic hmem
  obtain ⟨_, line, _, hcase⟩ := hfound diagnostic hmem
  cases hcase with
  | ignored => rfl
  | error column hcause =>
    unfold Cause.isUnknown
    split
    · next heq =>
      obtain rfl := heq
      contradiction
    · rfl

namespace Script.Settled

theorem scopes_eq (h : script.Settled checker asked reading whole) :
    script.tree.scopes = Sketch.sections reading.entries := by
  have hshaped := h.drawn.shaped
  refine h.pruned.scopes_eq (fun id hcut => ?_) fun id hne hscope => ?_
  · refine Bool.eq_false_iff.mpr fun hscope => ?_
    rw [← h.drawn.isScope] at hscope
    exact Review.not_mem_rejections_of_isScope hscope (List.mem_reverse.mp hcut)
  · rw [← h.drawn.isScope] at hscope
    exact ((hshaped.mem_children_iff _ id).mp (h.mem_children_root hne hscope)).2

theorem filter_isDuplicate (h : script.Settled checker asked reading whole) :
    script.diagnostics.filter (·.cause.isDuplicate) =
      reading.diagnostics.toList.filter (·.cause.isDuplicate) := by
  have hlinks : (reading.links.toList.filterMap (Link.complaint? whole)).filter
      (·.cause.isDuplicate) = [] := by
    refine List.filter_eq_nil_iff.mpr fun diagnostic hmem => ?_
    obtain ⟨link, _, hcomplaint⟩ := List.mem_filterMap.mp hmem
    rw [(Link.complaint?_eq_some_iff.mp hcomplaint).2]
    exact Bool.false_ne_true
  have hcut : ((Review.rejections checker whole reading.asked whole.walk.reverse).map
      (Review.complaint whole)).filter (·.cause.isDuplicate) = [] := by
    refine List.filter_eq_nil_iff.mpr fun diagnostic hmem => ?_
    obtain ⟨rejected, _, rfl⟩ := List.mem_map.mp hmem
    exact Bool.false_ne_true
  rw [h.diagnostics, List.filter_append, List.filter_append, hlinks, hcut, List.append_nil,
    List.append_nil]

theorem filter_isUnknown (h : script.Settled checker asked reading whole)
    (hread : Reading.read options checker lines = .ok reading) :
    script.diagnostics.filter (·.cause.isUnknown) =
      reading.links.toList.filterMap (Link.complaint? whole) := by
  have hscan : reading.diagnostics.toList.filter (·.cause.isUnknown) = [] :=
    List.filter_eq_nil_iff.mpr fun diagnostic hmem =>
      Bool.eq_false_iff.mp (Reading.isUnknown_of_mem_diagnostics hread diagnostic hmem)
  have hcut : ((Review.rejections checker whole reading.asked whole.walk.reverse).map
      (Review.complaint whole)).filter (·.cause.isUnknown) = [] := by
    refine List.filter_eq_nil_iff.mpr fun diagnostic hmem => ?_
    obtain ⟨rejected, _, rfl⟩ := List.mem_map.mp hmem
    exact Bool.false_ne_true
  rw [h.diagnostics, List.filter_append, List.filter_append, hscan, hcut, List.nil_append,
    List.append_nil, List.filter_eq_self]
  intro diagnostic hmem
  obtain ⟨link, _, hcomplaint⟩ := List.mem_filterMap.mp hmem
  rw [(Link.complaint?_eq_some_iff.mp hcomplaint).2]
  rfl

theorem get?_jump_iff (h : script.Settled checker asked reading whole) {id : Nat} {span : Span}
    {key : String} {target : Option NodeId} :
    script.tree.get? id = some ⟨span, .leaf (.jump key target)⟩ ↔
      whole.get? id = some ⟨span, .leaf (.jump key target)⟩ := by
  rw [h.tree, Tree.get?_detach]
  cases whole.get? id with
  | none => exact Iff.rfl
  | some node =>
    obtain ⟨found, content⟩ := node
    cases content <;> simp [Node.mapChildren, Content.mapChildren]

private theorem isLost_iff (h : script.Settled checker asked reading whole) (id : Nat) :
    script.tree.isLost id = true ↔
      ∃ span key, whole.get? id = some ⟨span, .leaf (.jump key none)⟩ := by
  simp only [← h.get?_jump_iff]
  rw [Tree.isLost]
  cases script.tree.get? id with
  | none => simp
  | some node =>
    obtain ⟨span, content⟩ := node
    cases content with
    | block => simp
    | leaf leaf =>
      cases leaf with
      | jump key target => cases target <;> simp
      | _ => simp

theorem filter_isLost (h : script.Settled checker asked reading whole)
    (hread : Reading.read options checker lines = .ok reading) :
    (List.range script.tree.size).filter script.tree.isLost =
      (reading.links.toList.filter fun link => (link.complaint? whole).isSome).map Link.node := by
  have hlinks := Reading.links_eq hread
  have hsorted : (reading.links.toList.map Link.node).Pairwise (· < ·) := by
    have hjumps := Sketch.sorted_jumps reading.entries
    rw [← hlinks, List.pairwise_map] at hjumps
    exact List.pairwise_map.mpr hjumps
  refine eq_of_sorted (List.pairwise_lt_range.filter _)
    (hsorted.sublist (List.filter_sublist.map _)) fun id => ?_
  rw [List.mem_filter, List.mem_range, h.isLost_iff, List.mem_map]
  constructor
  · rintro ⟨_, span, key, hnode⟩
    have hlabel : Sketch.labelAt? reading.entries id = some (.leaf (.jump key none)) := by
      rw [← h.drawn.label?, Tree.label?_eq, hnode]
      rfl
    have hjump := Sketch.mem_jumps_of_labelAt? hlabel
    rw [← hlinks] at hjump
    obtain ⟨link, hlink, hpair⟩ := List.mem_map.mp hjump
    obtain ⟨rfl, rfl⟩ := Prod.mk.inj hpair
    have hnone := h.target? link.node link.key hlabel
    rw [Tree.target?, hnode] at hnone
    refine ⟨link, List.mem_filter.mpr ⟨hlink, ?_⟩, rfl⟩
    rw [Link.complaint?_eq_some_iff.mpr ⟨hnone.symm, rfl⟩]
    rfl
  · rintro ⟨link, hlink, rfl⟩
    obtain ⟨hmem, hsome⟩ := List.mem_filter.mp hlink
    obtain ⟨diagnostic, hcomplaint⟩ := Option.isSome_iff_exists.mp hsome
    have hjump : (link.node, link.key) ∈ Sketch.jumps reading.entries := by
      rw [← hlinks]
      exact List.mem_map_of_mem hmem
    obtain ⟨span, hnode⟩ := h.exists_jump_of_mem_jumps hjump
    rw [(Link.complaint?_eq_some_iff.mp hcomplaint).1] at hnode
    refine ⟨?_, span, link.key, hnode⟩
    rw [h.pruned.size_eq, ← h.drawn.size_eq]
    exact (Array.getElem?_eq_some_iff.mp hnode).1

theorem marker_of_jump (h : script.Settled checker asked reading whole)
    (hread : Reading.read options checker lines = .ok reading) {line : Line} {id : Nat}
    {span : Span} {key : String} {target : Option NodeId}
    (hat : Line.at? lines line.number = some line)
    (hcreates : Progress.Creates options checker lines line id)
    (hnode : whole.get? id = some ⟨span, .leaf (.jump key target)⟩) :
    line.marker = .jump ∧ span.line = line.number := by
  obtain ⟨hpos, hid, hstart⟩ := (Progress.lineAt_eq_iff hread hat).mpr hcreates
  rw [← Reading.stage_length hread] at hid
  obtain ⟨entry, sources, hentry, hsay, hsources⟩ :=
    Progress.entered_of_pos hread (Nat.le_refl _) hpos hid
  rw [Reading.stage_length hread] at hentry
  have hmark := h.drawn.mark? id
  rw [hentry, Tree.mark?, hnode] at hmark
  have hline : span.line = line.number := by
    rw [← hstart, ← h.drawn.lineOf, Tree.lineOf, hnode]
  rw [← show (⟨span.line, span.column, .leaf (.jump key none)⟩ : Mark) = entry.mark from
    Option.some.inj hmark] at hsay
  generalize hsaid : (⟨span.line, span.column, .leaf (.jump key none)⟩ : Mark) = mark at hsay
  cases hsay with
  | @jump other found hmarker hkey =>
    obtain ⟨_, hother, _⟩ := (hsources.mem_iff other).mp List.mem_cons_self
    rw [← (Mark.mk.inj hsaid).1, hline, hat] at hother
    obtain rfl := Option.some.inj hother
    exact ⟨hmarker, hline⟩
  | _ => cases (Mark.mk.inj hsaid).2.2

theorem forall₂_unknown (h : script.Settled checker asked reading whole)
    (hread : Reading.read options checker lines = .ok reading) :
    List.Forall₂ (script.tree.Misses lines) (script.diagnostics.filter (·.cause.isUnknown))
      ((List.range script.tree.size).filter script.tree.isLost) := by
  have hlinks := Progress.exists_admits_of_link hread (Nat.le_refl _)
  rw [Reading.stage_length hread] at hlinks
  rw [h.filter_isUnknown hread, h.filter_isLost hread, List.forall₂_map_right_iff]
  refine (forall₂_filterMap (Link.complaint? whole) reading.links.toList).imp ?_
  rintro diagnostic link ⟨hlink, hcomplaint⟩
  obtain ⟨line, hline, hcreates, hnumber, hcolumn⟩ := hlinks link hlink
  obtain ⟨hnone, rfl⟩ := Link.complaint?_eq_some_iff.mp hcomplaint
  have hjump : (link.node, link.key) ∈ Sketch.jumps reading.entries := by
    rw [← Reading.links_eq hread]
    exact List.mem_map_of_mem hlink
  obtain ⟨span, hnode⟩ := h.exists_jump_of_mem_jumps hjump
  rw [hnone] at hnode
  obtain ⟨hmarker, hstart⟩ := h.marker_of_jump hread hline.at? hcreates hnode
  refine ⟨line, span, link.key, hline.at?, hmarker, hstart, h.get?_jump_iff.mpr hnode, ?_⟩
  rw [hnumber, hcolumn]

theorem forall₂_duplicates (h : script.Settled checker asked reading whole)
    (hread : Reading.read options checker lines = .ok reading) :
    List.Forall₂
      (fun diagnostic id => ∃ key first, script.tree.key? id = some key ∧
        script.tree.find? key = some first ∧
        diagnostic = ⟨script.tree.lineOf id, script.tree.columnOf id,
          .duplicateScope key (script.tree.lineOf first)⟩)
      (script.diagnostics.filter (·.cause.isDuplicate))
      (script.tree.scopes.filter fun id => id ∉ script.tree.names.map Prod.snd) := by
  have hpruned := h.pruned
  have hfilter : (Sketch.sections reading.entries).filter
        (fun id => id ∉ script.tree.names.map Prod.snd) =
      (Sketch.sections reading.entries).filter
        fun id => (Sketch.duplicate? reading.entries id).isSome := by
    refine List.filter_congr fun id hid => ?_
    obtain ⟨key, hkey⟩ := Sketch.mem_sections_iff.mp hid
    obtain ⟨first, hfirst, _⟩ := Sketch.exists_lookup_of_keyAt? hkey
    rw [Sketch.duplicate?, hkey, Option.bind_some, hfirst, Option.bind_some, hpruned.names]
    have hentered : id ∈ (Sketch.names reading.entries).map Prod.snd ↔ first = id := by
      rw [List.mem_map]
      constructor
      · rintro ⟨⟨name, _⟩, hname, rfl⟩
        have hfound := Sketch.mem_names_iff.mp hname
        have hsame := (Sketch.lookup_names_eq_some_iff.mp hfound).1
        obtain rfl : key = name := Option.some.inj (hkey.symm.trans hsame)
        exact Option.some.inj (hfirst.symm.trans hfound)
      · rintro rfl
        exact ⟨(key, first), Sketch.mem_names_iff.mpr hfirst, rfl⟩
    by_cases hsame : first = id <;> simp [hentered, hsame]
  rw [h.filter_isDuplicate, Reading.filter_isDuplicate_diagnostics hread, h.scopes_eq, hfilter]
  refine (forall₂_filterMap (Sketch.duplicate? reading.entries) _).imp ?_
  rintro diagnostic id ⟨_, hduplicate⟩
  obtain ⟨key, hkey, hrest⟩ := Option.bind_eq_some_iff.mp hduplicate
  obtain ⟨first, hfirst, hdiagnostic⟩ := Option.bind_eq_some_iff.mp hrest
  split at hdiagnostic
  next => contradiction
  next =>
    refine ⟨key, first, (hpruned.key?_eq_keyAt? id).trans hkey, ?_, ?_⟩
    · rw [Tree.find?, hpruned.names, hfirst]
    · rw [hpruned.lineOf, hpruned.lineOf, hpruned.columnOf_eq]
      exact (Option.some.inj hdiagnostic).symm

/-- A name leads to the first section that has it. -/
theorem find?_eq_find?_scopes (h : script.Settled checker asked reading whole) (key : String) :
    script.tree.find? key =
      script.tree.scopes.find? fun id => script.tree.key? id == some key := by
  have hpruned := h.pruned
  rw [Tree.find?, hpruned.names, h.scopes_eq]
  simp only [hpruned.key?_eq_keyAt?]
  cases hfirst : (Sketch.names reading.entries).lookup key with
  | none =>
    refine (List.find?_eq_none.mpr fun id _ hid => ?_).symm
    obtain ⟨first, hsome, _⟩ := Sketch.exists_lookup_of_keyAt? (beq_iff_eq.mp hid)
    rw [hfirst] at hsome
    contradiction
  | some first =>
    obtain ⟨hkey, hbefore⟩ := Sketch.lookup_names_eq_some_iff.mp hfirst
    have hhere : (Sketch.keyAt? reading.entries first == some key) = true := beq_iff_eq.mpr hkey
    refine (Tree.find?_eq_of_least (Sketch.sorted_sections _)
      (Sketch.mem_sections_iff.mpr ⟨key, hkey⟩) hhere fun other _ hother => ?_).symm
    exact Nat.le_of_not_lt fun hlt => hbefore other hlt (beq_iff_eq.mp hother)

theorem nodup_of_fail (h : script.Settled checker asked reading whole)
    (hread : Reading.read options checker lines = .ok reading)
    (hfail : options.duplicates = .fail) :
    (script.tree.scopes.map script.tree.key?).Nodup ∧
      ∀ diagnostic ∈ script.diagnostics, diagnostic.cause.isDuplicate = false := by
  have hentered := Reading.lookup_names_of_fail hfail hread
  constructor
  · rw [h.scopes_eq, List.nodup_iff_pairwise_ne, List.pairwise_map]
    refine (Sketch.sorted_sections reading.entries).imp_of_mem ?_
    intro id other hid _ hlt hsame
    obtain ⟨key, hkey⟩ := Sketch.mem_sections_iff.mp hid
    rw [h.pruned.key?_eq_keyAt?, h.pruned.key?_eq_keyAt?, hkey] at hsame
    have hboth := (hentered id key hkey).symm.trans (hentered other key hsame.symm)
    exact Nat.ne_of_lt hlt (Option.some.inj hboth)
  · have hnone := h.filter_isDuplicate.trans (Reading.filter_isDuplicate_of_fail hfail hread)
    intro diagnostic hmem
    exact Bool.eq_false_iff.mpr (List.filter_eq_nil_iff.mp hnone diagnostic hmem)

end Script.Settled

end Parse

/-- The names of a script, its jumps, and what is said about both. -/
theorem named_of_ok {options : Options} {checker : Checker} {lines : List String}
    {script : Script} (h : (parseLines options checker lines).result = .ok script) :
    script.Named options lines := by
  obtain ⟨reading, hread, hsettled⟩ := settled_of_ok h
  have hpruned := hsettled.pruned
  constructor
  · intro id hid
    rw [hsettled.scopes_eq] at hid
    obtain ⟨key, hkey⟩ := Sketch.mem_sections_iff.mp hid
    exact ⟨key, (hpruned.key?_eq_keyAt? id).trans hkey, Reading.trim_keyAt? hread hkey⟩
  · exact hsettled.find?_eq_find?_scopes
  · intro id span key target hnode
    have hfind := hpruned.find?_eq_of_jump hnode
    refine ⟨hfind.symm, fun scope htarget => ?_⟩
    rw [htarget] at hfind
    have hscope := hpruned.isScope_of_find? hfind
    have hin := Tree.lt_size_of_label? (hpruned.label?_of_find? hfind).2
    exact ⟨hscope, (hsettled.walkable hread).sections scope hin hscope⟩
  · exact hsettled.forall₂_unknown hread
  · exact hsettled.nodup_of_fail hread
  · exact hsettled.forall₂_duplicates hread

/-- A jump forward, a jump that leads nowhere, and a name that is taken. -/
theorem named_of_taken_name :
    let options : Options := { duplicates := .report }
    let lines := ["-> end", "# act", "\t-> gone", "= end", "-> end", "= end"]
    ∃ script, (parseLines options .lenient lines).result = .ok script ∧
      script.Named options lines ∧
      script.diagnostics = [⟨5, 2, .duplicateScope "end" 3⟩, ⟨2, 3, .unknownScope "gone"⟩] ∧
      script.tree.scopes = [4, 6] ∧ script.tree.find? "end" = some 4 := by
  intro options lines
  have hparsed : (parseLines options .lenient lines).result.toOption.map (fun script =>
      (script.diagnostics, script.tree.scopes, script.tree.find? "end")) =
      some ([⟨5, 2, .duplicateScope "end" 3⟩, ⟨2, 3, .unknownScope "gone"⟩], [4, 6], some 4) := by
    decide +kernel
  obtain ⟨script, hparse, hsaid⟩ := exists_ok_of_map_toOption hparsed
  obtain ⟨hdiagnostics, hrest⟩ := Prod.mk.inj hsaid
  obtain ⟨hscopes, hfind⟩ := Prod.mk.inj hrest
  exact ⟨script, hparse, named_of_ok hparse, hdiagnostics, hscopes, hfind⟩

end Dialogue
