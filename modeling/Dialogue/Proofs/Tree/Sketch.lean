import Dialogue.Proofs.Tree.Level

/-! Sketches. A tree whose nodes are numbered in pre-order is known, but for the ends of its
spans and the targets of its jumps, from the list of its nodes with their levels. -/
namespace Dialogue

/-- A node of a sketch. Its number is its place in the list. -/
structure Entry where
  level : Nat
  mark : Mark
  deriving Repr, DecidableEq

namespace Sketch

variable {entries more : List Entry} {id other : Nat}

def levelAt (entries : List Entry) (id : Nat) : Nat := (entries[id]?.map Entry.level).getD 0

def labelAt? (entries : List Entry) (id : Nat) : Option Content :=
  entries[id]?.map (·.mark.label)

def lineAt (entries : List Entry) (id : Nat) : Nat := (entries[id]?.map (·.mark.line)).getD 0

def isScopeAt (entries : List Entry) (id : Nat) : Bool :=
  (labelAt? entries id).any Content.isScope

def isBlockAt (entries : List Entry) (id : Nat) : Bool :=
  (labelAt? entries id).any Content.isBlock

/-- A node such that all that follow it are further down. -/
structure IsRightmost (entries : List Entry) (id : Nat) : Prop where
  lt : id < entries.length
  level_lt : ∀ later, id < later → later < entries.length → levelAt entries id < levelAt entries later

theorem levelAt_append (h : id < entries.length) : levelAt (entries ++ more) id = levelAt entries id := by
  rw [levelAt, levelAt, List.getElem?_append_left h]

theorem labelAt?_append (h : id < entries.length) :
    labelAt? (entries ++ more) id = labelAt? entries id := by
  rw [labelAt?, labelAt?, List.getElem?_append_left h]

@[simp] theorem levelAt_length (entry : Entry) :
    levelAt (entries ++ [entry]) entries.length = entry.level := by
  simp [levelAt]

@[simp] theorem labelAt?_length (entry : Entry) :
    labelAt? (entries ++ [entry]) entries.length = some entry.mark.label := by
  simp [labelAt?]

theorem isScopeAt_append (h : id < entries.length) :
    isScopeAt (entries ++ more) id = isScopeAt entries id := by
  rw [isScopeAt, isScopeAt, labelAt?_append h]

theorem isBlockAt_append (h : id < entries.length) :
    isBlockAt (entries ++ more) id = isBlockAt entries id := by
  rw [isBlockAt, isBlockAt, labelAt?_append h]

theorem lt_length_of_isBlockAt (h : isBlockAt entries id = true) : id < entries.length := by
  refine Nat.lt_of_not_le fun hle => ?_
  rw [isBlockAt, labelAt?, List.getElem?_eq_none hle] at h
  contradiction

theorem isBlockAt_of_isScopeAt (h : isScopeAt entries id = true) : isBlockAt entries id = true := by
  unfold isScopeAt at h
  unfold isBlockAt
  cases hlabel : labelAt? entries id with
  | none => rw [hlabel] at h; contradiction
  | some label =>
    rw [hlabel] at h
    cases label with
    | block => rfl
    | leaf => contradiction

theorem eq_length_or_isScopeAt {entry : Entry} (h : isScopeAt (entries ++ [entry]) id = true) :
    id = entries.length ∧ entry.mark.label.isScope = true ∨
      id < entries.length ∧ isScopeAt entries id = true := by
  have hlt := lt_length_of_isBlockAt (isBlockAt_of_isScopeAt h)
  rw [List.length_append, List.length_singleton] at hlt
  rcases Nat.lt_or_eq_of_le (Nat.le_of_lt_succ hlt) with hbefore | rfl
  · exact .inr ⟨hbefore, isScopeAt_append hbefore ▸ h⟩
  · rw [isScopeAt, labelAt?_length, Option.any_some] at h
    exact .inl ⟨rfl, h⟩

theorem isRightmost_length (entry : Entry) : IsRightmost (entries ++ [entry]) entries.length := by
  refine ⟨by simp, fun later hlo hhi => ?_⟩
  rw [List.length_append, List.length_singleton] at hhi
  omega

theorem IsRightmost.append (h : IsRightmost entries id) {entry : Entry}
    (hlevel : levelAt entries id < entry.level) : IsRightmost (entries ++ [entry]) id := by
  have hlt := h.lt
  refine ⟨by rw [List.length_append]; omega, fun later hlo hhi => ?_⟩
  rw [List.length_append, List.length_singleton] at hhi
  rw [levelAt_append hlt]
  rcases Nat.lt_or_ge later entries.length with hold | hnew
  · rw [levelAt_append hold]
    exact h.level_lt later hlo hold
  · obtain rfl : later = entries.length := by omega
    rwa [levelAt_length]

theorem IsRightmost.isParent (h : IsRightmost entries id) {entry : Entry}
    (hlevel : entry.level = levelAt entries id + 1) :
    IsParent (levelAt (entries ++ [entry])) id entries.length := by
  refine ⟨h.lt, ?_, fun node hlo hhi => ?_⟩
  · rw [levelAt_length, levelAt_append h.lt, hlevel]
  · have hlt := h.level_lt node hlo hhi
    rw [levelAt_length, levelAt_append hhi]
    omega

end Sketch

/-- Only the levels up to a node decide on its parent. -/
theorem IsParent.congr {level level' : Nat → Nat} {parent child : Nat}
    (hsame : ∀ id, id ≤ child → level' id = level id) :
    IsParent level' parent child ↔ IsParent level parent child := by
  constructor
  · intro h
    have hlt := h.lt
    refine ⟨hlt, ?_, fun node hlo hhi => ?_⟩
    · rw [← hsame child (Nat.le_refl _), ← hsame parent (Nat.le_of_lt hlt)]
      exact h.level_eq
    · rw [← hsame child (Nat.le_refl _), ← hsame node (Nat.le_of_lt hhi)]
      exact h.le_between node hlo hhi
  · intro h
    have hlt := h.lt
    refine ⟨hlt, ?_, fun node hlo hhi => ?_⟩
    · rw [hsame child (Nat.le_refl _), hsame parent (Nat.le_of_lt hlt)]
      exact h.level_eq
    · rw [hsame child (Nat.le_refl _), hsame node (Nat.le_of_lt hhi)]
      exact h.le_between node hlo hhi

namespace Tree

variable {tree : Tree} {entries : List Entry} {parent : Nat} {node : Node}

theorem Shaped.congr {level level' : Nat → Nat} {other : Tree} (h : tree.Shaped level)
    (hsize : other.size = tree.size) (hchildren : ∀ id, other.children id = tree.children id)
    (hlevel : ∀ id : Nat, id < tree.size → level' id = level id) : other.Shaped level' := by
  have hsame (id child : Nat) (hlt : child < tree.size) (hle : id ≤ child) :
      level' id = level id := hlevel id (Nat.lt_of_le_of_lt hle hlt)
  constructor
  · rw [hsize]
    exact h.size_pos
  · exact (hlevel root h.size_pos).trans h.level_root
  · intro id hpos hlt
    rw [hsize] at hlt
    rw [hlevel id hlt]
    exact h.level_pos id hpos hlt
  · intro id hpos hlt
    rw [hsize] at hlt
    rw [hlevel id hlt, hlevel (id - 1) (by omega)]
    exact h.level_le id hpos hlt
  · intro id
    rw [hchildren]
    exact h.sorted id
  · intro parent child
    rw [hchildren, hsize, h.mem_children_iff]
    refine and_congr_right fun hlt => ?_
    exact (IsParent.congr fun id hle => hsame id child hlt hle).symm

structure Drawn (tree : Tree) (entries : List Entry) : Prop where
  size_eq : tree.size = entries.length
  shaped : tree.Shaped (Sketch.levelAt entries)
  mark? : ∀ id : Nat, tree.mark? id = entries[id]?.map Entry.mark

namespace Drawn

theorem label? (h : tree.Drawn entries) (id : Nat) :
    tree.label? id = Sketch.labelAt? entries id := by
  rw [Tree.label?, h.mark?, Option.map_map]
  rfl

theorem isScope (h : tree.Drawn entries) (id : Nat) :
    tree.isScope id = Sketch.isScopeAt entries id := by
  rw [isScope_eq, h.label?]
  rfl

theorem isBlock (h : tree.Drawn entries) (id : Nat) :
    tree.isBlock id = Sketch.isBlockAt entries id := by
  rw [Tree.isBlock, h.label?]
  rfl

theorem lineOf (h : tree.Drawn entries) (id : Nat) :
    tree.lineOf id = Sketch.lineAt entries id := by
  rw [lineOf_eq, h.mark?, Sketch.lineAt, Option.map_map]
  rfl

theorem congr {other : Tree} (h : tree.Drawn entries) (hsize : other.size = tree.size)
    (hchildren : ∀ id, other.children id = tree.children id)
    (hmark : ∀ id, other.mark? id = tree.mark? id) : other.Drawn entries := by
  refine ⟨hsize.trans h.size_eq, h.shaped.congr hsize hchildren fun _ _ => rfl, fun id => ?_⟩
  rw [hmark]
  exact h.mark? id

theorem close (h : tree.Drawn entries) (line : Nat) (id : NodeId) :
    (tree.close line id).Drawn entries :=
  h.congr (by simp) (by simp) (by simp)

theorem declare (h : tree.Drawn entries) (key : String) (id : NodeId) :
    (tree.declare key id).Drawn entries :=
  h.congr (by simp) (by simp) (by simp)

theorem mem_children_push (h : tree.Drawn entries) {entry : Entry} {id child : Nat}
    (hlevel : entry.level = Sketch.levelAt entries parent + 1)
    (hparent : Sketch.isBlockAt entries parent = true)
    (hlast : Sketch.IsRightmost entries parent) (hnode : node.children = []) :
    child ∈ (tree.push parent node).children id ↔
      child < tree.size + 1 ∧ IsParent (Sketch.levelAt (entries ++ [entry])) id child := by
  have hold (hchild : child < tree.size) : child ∈ tree.children id ↔
      IsParent (Sketch.levelAt (entries ++ [entry])) id child := by
    rw [h.shaped.mem_children_iff, and_iff_right hchild]
    refine (IsParent.congr fun other hle => Sketch.levelAt_append ?_).symm
    exact h.size_eq ▸ Nat.lt_of_le_of_lt hle hchild
  have hmem (hchild : child ∈ tree.children id) : child < tree.size :=
    ((h.shaped.mem_children_iff id child).mp hchild).1
  have hedge : IsParent (Sketch.levelAt (entries ++ [entry])) parent tree.size :=
    h.size_eq ▸ hlast.isParent hlevel
  rw [children_push (h.isBlock parent ▸ hparent) hnode id]
  rcases Nat.lt_trichotomy child tree.size with hbefore | rfl | hbehind
  · rw [and_iff_right (Nat.lt_succ_of_lt hbefore), ← hold hbefore]
    split
    · rw [List.mem_append, List.mem_singleton, or_iff_left (Nat.ne_of_lt hbefore)]
    · exact Iff.rfl
  · have hfresh : tree.size ∉ tree.children id := fun hin => Nat.lt_irrefl _ (hmem hin)
    rw [and_iff_right (Nat.lt_succ_self _)]
    split
    next heq =>
      subst heq
      exact iff_of_true (List.mem_append_right _ (List.mem_singleton.mpr rfl)) hedge
    next hne => exact iff_of_false hfresh fun hchild => hne (hchild.eq hedge)
  · refine iff_of_false ?_ fun hin => Nat.not_lt.mpr (Nat.succ_le_of_lt hbehind) hin.1
    split
    · rw [List.mem_append, List.mem_singleton]
      rintro (hin | rfl)
      · exact Nat.lt_asymm hbehind (hmem hin)
      · exact Nat.lt_irrefl _ hbehind
    · exact fun hin => Nat.lt_asymm hbehind (hmem hin)

theorem push (h : tree.Drawn entries) (hparent : Sketch.isBlockAt entries parent = true)
    (hlast : Sketch.IsRightmost entries parent) (hnode : node.children = []) :
    (tree.push parent node).Drawn
      (entries ++ [⟨Sketch.levelAt entries parent + 1, node.mark⟩]) := by
  have hsize := h.size_eq
  have hlt := hlast.lt
  generalize hentry : (⟨Sketch.levelAt entries parent + 1, node.mark⟩ : Entry) = entry
  have hlevel : entry.level = Sketch.levelAt entries parent + 1 := hentry ▸ rfl
  have hkept (id : Nat) (hid : id < tree.size) :
      Sketch.levelAt (entries ++ [entry]) id = Sketch.levelAt entries id :=
    Sketch.levelAt_append (hsize ▸ hid)
  have hnew : Sketch.levelAt (entries ++ [entry]) tree.size = Sketch.levelAt entries parent + 1 := by
    rw [hsize, Sketch.levelAt_length, hlevel]
  have hle : Sketch.levelAt entries parent ≤ Sketch.levelAt entries (tree.size - 1) := by
    rcases Nat.lt_or_ge parent (tree.size - 1) with hbefore | hend
    · exact Nat.le_of_lt (hlast.level_lt (tree.size - 1) hbefore (by omega))
    · have hsame : parent = tree.size - 1 := by omega
      exact Nat.le_of_eq (congrArg _ hsame)
  refine ⟨by simp [hsize], ⟨?_, ?_, ?_, ?_, ?_, ?_⟩, fun id => ?_⟩
  · rw [size_push]
    omega
  · exact (hkept root h.shaped.size_pos).trans h.shaped.level_root
  · intro id hpos hid
    rw [size_push] at hid
    rcases Nat.lt_or_eq_of_le (Nat.le_of_lt_succ hid) with hold | rfl
    · rw [hkept id hold]
      exact h.shaped.level_pos id hpos hold
    · omega
  · intro id hpos hid
    rw [size_push] at hid
    rcases Nat.lt_or_eq_of_le (Nat.le_of_lt_succ hid) with hold | rfl
    · rw [hkept id hold, hkept (id - 1) (by omega)]
      exact h.shaped.level_le id hpos hold
    · rw [hnew, hkept (tree.size - 1) (by omega)]
      omega
  · intro id
    rw [children_push (h.isBlock parent ▸ hparent) hnode id]
    split
    · refine List.pairwise_append.mpr ⟨h.shaped.sorted id, List.pairwise_singleton .., ?_⟩
      intro child hchild last hmem
      obtain rfl := List.mem_singleton.mp hmem
      exact ((h.shaped.mem_children_iff id child).mp hchild).1
    · exact h.shaped.sorted id
  · intro outer child
    rw [size_push]
    exact h.mem_children_push hlevel hparent hlast hnode
  · rw [mark?_push, h.mark?, hsize, ← hentry]
    split
    next heq => simp [heq]
    next hne =>
      rcases Nat.lt_or_ge id entries.length with hbefore | hbehind
      · rw [List.getElem?_append_left hbefore]
      · rw [List.getElem?_eq_none hbehind, List.getElem?_eq_none]
        rw [List.length_append, List.length_singleton]
        exact Nat.lt_of_le_of_ne hbehind (Ne.symm hne)

end Drawn
end Tree
end Dialogue
