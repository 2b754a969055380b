import Dialogue.Proofs.Parse.Effect
import Dialogue.Proofs.Tree.Branch

/-! Growth of sketches. What a line adds is put at the end of the sketch, at a level that
its depth alone decides, or goes on with the last command. -/
namespace Dialogue

def Growth.Fits (names : List (String × NodeId)) : Growth → Prop
  | leaf _ added => (Content.leaf added).target? = none
  | scope _ key declared => declared = (names.lookup key).isNone
  | _ => True

def Content.extend (text : String) : Content → Content
  | block (.command first) children => block (.command (first ++ "\n" ++ text)) children
  | content => content

@[simp] theorem Content.isBlock_extend (text : String) (content : Content) :
    (content.extend text).isBlock = content.isBlock := by
  unfold extend
  split <;> rfl

@[simp] theorem Content.isScope_extend (text : String) (content : Content) :
    (content.extend text).isScope = content.isScope := by
  unfold extend
  split <;> rfl

def Mark.extend (text : String) (mark : Mark) : Mark :=
  { mark with label := mark.label.extend text }

namespace Entry

def root : Entry := ⟨0, ⟨0, 0, .block (.scope none) []⟩⟩

def key? : Entry → Option String
  | ⟨_, _, _, .block (.scope key) _⟩ => key
  | _ => none

def isCommand : Entry → Bool
  | ⟨_, _, _, .block (.command _) _⟩ => true
  | _ => false

def extend (text : String) (entry : Entry) : Entry :=
  { entry with mark := entry.mark.extend text }

theorem key?_eq_none {entry : Entry} (h : entry.mark.label.isScope = false) :
    entry.key? = none := by
  unfold key?
  split
  · contradiction
  · rfl

theorem isBlock_of_isCommand {entry : Entry} (h : entry.isCommand = true) :
    entry.mark.label.isBlock = true ∧ entry.mark.label.isScope = false := by
  unfold isCommand at h
  split at h
  · exact ⟨rfl, rfl⟩
  · contradiction

@[simp] theorem key?_extend (text : String) (entry : Entry) :
    (entry.extend text).key? = entry.key? := by
  obtain ⟨level, line, column, label⟩ := entry
  cases label with
  | leaf => rfl
  | block block children => cases block <;> rfl

end Entry

namespace Sketch

variable {entries : List Entry} {entry : Entry} {id : Nat}

/-- One level is taken by the section that is being read, once there is one. -/
def ground (entries : List Entry) : Nat :=
  if (entries.map Entry.key?).any Option.isSome then 1 else 0

def declare (names : List (String × NodeId)) : Option String × Nat → List (String × NodeId)
  | (none, _) => names
  | (some key, id) => if (names.lookup key).isNone then names ++ [(key, id)] else names

def names (entries : List Entry) : List (String × NodeId) :=
  (entries.map Entry.key?).zipIdx.foldl declare []

def extensible? (entries : List Entry) (level : Nat) : Option Nat :=
  if entries.getLast?.any (fun last => last.isCommand && last.level == level) then
    some (entries.length - 1)
  else none

def grow (entries : List Entry) (depth number : Nat) : Growth → List Entry
  | .nothing => entries
  | .leaf column leaf =>
    entries ++ [⟨ground entries + depth, number, column, .leaf leaf.unaimed⟩]
  | .command column text =>
    match extensible? entries (ground entries + depth) with
    | some id => entries.modify id (Entry.extend text)
    | none => entries ++ [⟨ground entries + depth, number, column, .block (.command text) []⟩]
  | .choice column text condition =>
    entries ++ [⟨ground entries + depth, number, column, .block (.choice text condition) []⟩]
  | .scope column key _ => entries ++ [⟨1, number, column, .block (.scope (some key)) []⟩]

theorem extensible?_eq_some_iff {level : Nat} : extensible? entries level = some id ↔
    id + 1 = entries.length ∧
      ∃ entry, entries[id]? = some entry ∧ entry.isCommand = true ∧ entry.level = level := by
  have hend : entries.getLast? = entries[entries.length - 1]? := List.getLast?_eq_getElem?
  rw [extensible?, Option.ite_none_right_eq_some, Option.some.injEq, hend, Option.any_eq_true]
  simp only [Bool.and_eq_true, beq_iff_eq]
  constructor
  · rintro ⟨⟨entry, hentry, hcommand⟩, rfl⟩
    have hlt := (List.getElem?_eq_some_iff.mp hentry).1
    exact ⟨by omega, entry, hentry, hcommand⟩
  · rintro ⟨hlast, entry, hentry, hcommand⟩
    obtain rfl : id = entries.length - 1 := by omega
    exact ⟨⟨entry, hentry, hcommand⟩, rfl⟩

theorem names_append (entries : List Entry) (entry : Entry) :
    names (entries ++ [entry]) = declare (names entries) (entry.key?, entries.length) := by
  simp [names, List.zipIdx_append]

theorem names_append_of_key?_eq_none (h : entry.key? = none) :
    names (entries ++ [entry]) = names entries := by
  rw [names_append, h]
  rfl

section Extend

variable (entries : List Entry) (id : Nat) (text : String)

theorem getElem?_extend (other : Nat) :
    (entries.modify id (Entry.extend text))[other]? =
      if id = other then entries[other]?.map (Entry.extend text) else entries[other]? := by
  rw [List.getElem?_modify]
  split
  · rfl
  · exact Option.map_id'

theorem keys_extend :
    (entries.modify id (Entry.extend text)).map Entry.key? = entries.map Entry.key? := by
  refine List.ext_getElem? fun other => ?_
  rw [List.getElem?_map, List.getElem?_map, getElem?_extend]
  split
  · simp [Function.comp_def]
  · rfl

theorem names_extend : names (entries.modify id (Entry.extend text)) = names entries := by
  rw [names, keys_extend, names]

theorem ground_extend : ground (entries.modify id (Entry.extend text)) = ground entries := by
  rw [ground, keys_extend, ground]

theorem levelAt_extend (other : Nat) :
    levelAt (entries.modify id (Entry.extend text)) other = levelAt entries other := by
  rw [levelAt, levelAt, getElem?_extend]
  split
  · rw [Option.map_map]
    rfl
  · rfl

theorem labelAt?_extend (other : Nat) :
    labelAt? (entries.modify id (Entry.extend text)) other =
      if id = other then (labelAt? entries other).map (Content.extend text)
      else labelAt? entries other := by
  rw [labelAt?, labelAt?, getElem?_extend]
  split
  · rw [Option.map_map, Option.map_map]
    rfl
  · rfl

theorem isBlockAt_extend (other : Nat) :
    isBlockAt (entries.modify id (Entry.extend text)) other = isBlockAt entries other := by
  rw [isBlockAt, isBlockAt, labelAt?_extend]
  split
  · simp [Option.any_map]
  · rfl

theorem isScopeAt_extend (other : Nat) :
    isScopeAt (entries.modify id (Entry.extend text)) other = isScopeAt entries other := by
  rw [isScopeAt, isScopeAt, labelAt?_extend]
  split
  · simp [Option.any_map]
  · rfl

end Extend

/-- Sections stand on the root and are not followed by anything else there. -/
structure Regular (entries : List Entry) : Prop where
  root : entries[0]? = some Entry.root
  section_level : ∀ id, 0 < id → isScopeAt entries id = true → levelAt entries id = 1
  section_key : ∀ id, 0 < id → isScopeAt entries id = true →
    ∃ key, labelAt? entries id = some (.block (.scope (some key)) [])
  sections_last : ∀ id later, 0 < id → isScopeAt entries id = true → id < later →
    later < entries.length → levelAt entries later = 1 → isScopeAt entries later = true

namespace Regular

theorem length_pos (h : Regular entries) : 0 < entries.length :=
  (List.getElem?_eq_some_iff.mp h.root).1

theorem isScopeAt_root (h : Regular entries) : isScopeAt entries 0 = true := by
  rw [isScopeAt, labelAt?, h.root]
  rfl

theorem levelAt_root (h : Regular entries) : levelAt entries 0 = 0 := by
  rw [levelAt, h.root]
  rfl

theorem ground_eq_one_iff (h : Regular entries) :
    ground entries = 1 ↔ ∃ id, 0 < id ∧ isScopeAt entries id = true := by
  have hiff : ground entries = 1 ↔ (entries.map Entry.key?).any Option.isSome = true := by
    unfold ground
    split <;> simp_all
  rw [hiff, List.any_eq_true]
  constructor
  · rintro ⟨_, hmem, hkey⟩
    obtain ⟨entry, hentry, rfl⟩ := List.mem_map.mp hmem
    obtain ⟨id, hid⟩ := List.getElem?_of_mem hentry
    refine ⟨id, Nat.pos_of_ne_zero ?_, ?_⟩
    · rintro rfl
      rw [h.root] at hid
      obtain rfl := Option.some.inj hid
      contradiction
    · rw [isScopeAt, labelAt?, hid]
      cases hscope : entry.mark.label.isScope with
      | true => simp [hscope]
      | false => rw [Entry.key?_eq_none hscope] at hkey; contradiction
  · rintro ⟨id, hpos, hscope⟩
    obtain ⟨key, hlabel⟩ := h.section_key id hpos hscope
    obtain ⟨entry, hentry, hmark⟩ := Option.map_eq_some_iff.mp hlabel
    refine ⟨_, List.mem_map_of_mem (List.mem_of_getElem? hentry), ?_⟩
    obtain ⟨level, line, column, label⟩ := entry
    obtain rfl : label = _ := hmark
    rfl

theorem ground_le_one (entries : List Entry) : ground entries ≤ 1 := by
  unfold ground
  split <;> omega

theorem levelAt_eq_ground (h : Regular entries) (hscope : isScopeAt entries id = true)
    (hlast : ∀ other, isScopeAt entries other = true → other ≤ id) :
    levelAt entries id = ground entries := by
  have hle := ground_le_one entries
  rcases Nat.eq_zero_or_pos id with rfl | hpos
  · have hnone : ground entries ≠ 1 := by
      rw [Ne, h.ground_eq_one_iff]
      rintro ⟨other, hpos, hother⟩
      exact Nat.not_lt.mpr (hlast other hother) hpos
    rw [h.levelAt_root]
    omega
  · rw [h.section_level id hpos hscope, h.ground_eq_one_iff.mpr ⟨id, hpos, hscope⟩]

theorem append (h : Regular entries) (hlevel : ground entries < entry.level)
    (hscope : entry.mark.label.isScope = false) : Regular (entries ++ [entry]) := by
  have hold {id : Nat} (hid : isScopeAt (entries ++ [entry]) id = true) :
      id < entries.length ∧ isScopeAt entries id = true := by
    rcases eq_length_or_isScopeAt hid with ⟨_, hnew⟩ | hbefore
    · rw [hscope] at hnew
      contradiction
    · exact hbefore
  refine ⟨?_, fun id hpos hid => ?_, fun id hpos hid => ?_, ?_⟩
  · rw [List.getElem?_append_left h.length_pos]
    exact h.root
  · obtain ⟨hlt, hid⟩ := hold hid
    rw [levelAt_append hlt]
    exact h.section_level id hpos hid
  · obtain ⟨hlt, hid⟩ := hold hid
    rw [labelAt?_append hlt]
    exact h.section_key id hpos hid
  · intro id later hpos hid hlo hhi hone
    obtain ⟨hlt, hid⟩ := hold hid
    rw [List.length_append, List.length_singleton] at hhi
    rcases Nat.lt_or_eq_of_le (Nat.le_of_lt_succ hhi) with hbefore | rfl
    · rw [levelAt_append hbefore] at hone
      rw [isScopeAt_append hbefore]
      exact h.sections_last id later hpos hid hlo hbefore hone
    · have hground := h.ground_eq_one_iff.mpr ⟨id, hpos, hid⟩
      rw [levelAt_length] at hone
      omega

theorem appendScope (h : Regular entries) {number column : Nat} {key : String} :
    Regular (entries ++ [⟨1, number, column, .block (.scope (some key)) []⟩]) := by
  generalize hentry : (⟨1, number, column, .block (.scope (some key)) []⟩ : Entry) = entry
  have hnew : isScopeAt (entries ++ [entry]) entries.length = true := by
    rw [isScopeAt, labelAt?_length, ← hentry]
    rfl
  refine ⟨?_, fun id hpos hid => ?_, fun id hpos hid => ?_, ?_⟩
  · rw [List.getElem?_append_left h.length_pos]
    exact h.root
  · rcases eq_length_or_isScopeAt hid with ⟨rfl, _⟩ | ⟨hlt, hid⟩
    · rw [levelAt_length, ← hentry]
    · rw [levelAt_append hlt]
      exact h.section_level id hpos hid
  · rcases eq_length_or_isScopeAt hid with ⟨rfl, _⟩ | ⟨hlt, hid⟩
    · exact ⟨key, by rw [labelAt?_length, ← hentry]⟩
    · rw [labelAt?_append hlt]
      exact h.section_key id hpos hid
  · intro id later hpos hid hlo hhi hone
    rw [List.length_append, List.length_singleton] at hhi
    rcases Nat.lt_or_eq_of_le (Nat.le_of_lt_succ hhi) with hbefore | rfl
    · rcases eq_length_or_isScopeAt hid with ⟨rfl, _⟩ | ⟨hlt, hid⟩
      · omega
      · rw [levelAt_append hbefore] at hone
        rw [isScopeAt_append hbefore]
        exact h.sections_last id later hpos hid hlo hbefore hone
    · exact hnew

theorem extend (h : Regular entries) (id : Nat) (text : String) :
    Regular (entries.modify id (Entry.extend text)) := by
  refine ⟨?_, fun other hpos hother => ?_, fun other hpos hother => ?_, ?_⟩
  · rw [getElem?_extend, h.root]
    split <;> rfl
  · rw [levelAt_extend]
    exact h.section_level other hpos (isScopeAt_extend .. ▸ hother)
  · obtain ⟨key, hkey⟩ := h.section_key other hpos (isScopeAt_extend .. ▸ hother)
    refine ⟨key, ?_⟩
    rw [labelAt?_extend, hkey]
    split <;> rfl
  · intro other later hpos hother hlo hhi hone
    rw [List.length_modify] at hhi
    rw [levelAt_extend] at hone
    rw [isScopeAt_extend]
    exact h.sections_last other later hpos (isScopeAt_extend .. ▸ hother) hlo hhi hone

end Regular

/-- The number of open blocks gives the level of the innermost one. -/
theorem Branch.levelAt_head {below : List Nat} (h : Branch entries (id :: below))
    (hregular : Regular entries) : levelAt entries id = ground entries + below.length := by
  generalize hopened : id :: below = opened at h
  induction h generalizing id below with
  | scope hscope hlast =>
    obtain ⟨rfl, rfl⟩ := List.cons.inj hopened
    exact hregular.levelAt_eq_ground hscope hlast
  | block _ _ _ hlevel _ ih =>
    obtain ⟨rfl, rfl⟩ := List.cons.inj hopened
    rw [hlevel, ih rfl, List.length_cons]
    omega

end Sketch
end Dialogue
