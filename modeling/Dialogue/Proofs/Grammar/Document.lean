import Dialogue.Proofs.Grammar.Clean
import Dialogue.Proofs.Grammar.Shape

/-! Documents: dialogues as they are nested, with no numbers for their nodes. A document is
well formed if it can be written down, and the sketch of its tree lists its nodes in the order
in which they are written. -/
namespace Dialogue

/-- Siblings, the first of them in front, with all that hangs on them. -/
inductive Outline
  | done
  | leaf (leaf : Leaf) (rest : Outline)
  | block (block : Block) (body rest : Outline)
  deriving Repr, DecidableEq

/-- What stands before the first section, and the sections by name. -/
structure Document where
  opening : Outline
  sections : List (String × Outline)
  deriving Repr, DecidableEq

/-- The text of a line is not taken for anything else, and where a jump leads is for its name
to say. -/
def Leaf.WellFormed : Leaf → Prop
  | line text => Text.Clean text.toList ∧ text ≠ "" ∧
      ∀ marker : Marker, marker ≠ .text → ¬ marker.sign <+: text.toList
  | comment text => Text.Clean text.toList
  | jump key target => Text.Clean key.toList ∧ key ≠ "" ∧ target = none
  | back => True

/-- A command is written on one line or more, and a plain choice has no guard behind it. -/
def Block.WellFormed : Block → Prop
  | scope _ => False
  | command text => ∃ pieces : List (List Char), pieces ≠ [] ∧
      text.toList = List.intercalate ['\n'] pieces ∧
      ∀ piece ∈ pieces, Text.Clean piece ∧ piece ≠ []
  | choice text none => Text.Clean text.toList ∧ text ≠ "" ∧
      ∀ before guard, text.toList ≠ before ++ '#' :: (guard ++ ['#'])
  | choice text (some guard) => Text.Clean text.toList ∧ '#' ∉ text.toList ∧
      Text.Clean guard.toList ∧ guard ≠ ""

def Block.isCommand : Block → Bool
  | command _ => true
  | _ => false

namespace Outline

def startsWithCommand : Outline → Bool
  | block b _ _ => b.isCommand
  | _ => false

/-- A command without a body goes on with the command after it, so there is none. -/
def WellFormed : Outline → Prop
  | done => True
  | leaf l rest => l.WellFormed ∧ rest.WellFormed
  | block b body rest => b.WellFormed ∧ body.WellFormed ∧ rest.WellFormed ∧
      (b.isCommand = true → body = done → rest.startsWithCommand = false)

/-- The nodes in the order in which they are written, with their levels. -/
def shape (level : Nat) : Outline → List (Nat × Content)
  | done => []
  | leaf l rest => (level, .leaf l) :: rest.shape level
  | block b body rest => (level, .block b []) :: (body.shape (level + 1) ++ rest.shape level)

def jumps : Outline → List String
  | done => []
  | leaf (.jump key _) rest => key :: rest.jumps
  | leaf _ rest => rest.jumps
  | block _ body rest => body.jumps ++ rest.jumps

def append : Outline → Outline → Outline
  | done, other => other
  | leaf l rest, other => leaf l (rest.append other)
  | block b body rest, other => block b body (rest.append other)

def ofSections : List (String × Outline) → Outline
  | [] => done
  | (key, body) :: rest => block (.scope (some key)) body (ofSections rest)

@[simp] theorem shape_append (outline other : Outline) (level : Nat) :
    (outline.append other).shape level = outline.shape level ++ other.shape level := by
  induction outline with
  | done => rfl
  | leaf l rest ih => simp [append, shape, ih]
  | block b body rest _ ih => simp [append, shape, ih]

theorem le_of_mem_shape {outline : Outline} {level : Nat} {node : Nat × Content}
    (h : node ∈ outline.shape level) : level ≤ node.1 := by
  induction outline generalizing level with
  | done => contradiction
  | leaf l rest ih =>
    rcases List.mem_cons.mp h with rfl | hrest
    · exact Nat.le_refl _
    · exact ih hrest
  | block b body rest ihbody ihrest =>
    rcases List.mem_cons.mp h with rfl | hmore
    · exact Nat.le_refl _
    · rcases List.mem_append.mp hmore with hbody | hrest
      · exact Nat.le_of_succ_le (ihbody hbody)
      · exact ihrest hrest

theorem head?_shape {outline : Outline} {level : Nat} {node : Nat × Content}
    (h : (outline.shape level).head? = some node) : node.1 = level := by
  cases outline with
  | done => contradiction
  | leaf => exact Option.some.inj h ▸ rfl
  | block => exact Option.some.inj h ▸ rfl

theorem keys_shape {outline : Outline} (h : outline.WellFormed) (level : Nat) :
    Sketch.keys (outline.shape level) = [] := by
  induction outline generalizing level with
  | done => rfl
  | leaf l rest ih => exact ih h.2 level
  | block b body rest ihbody ihrest =>
    obtain ⟨hblock, hbody, hrest, _⟩ := h
    have hkey : (Content.block b []).key? = none := by
      cases b with
      | scope => exact hblock.elim
      | command => rfl
      | choice => rfl
    rw [shape, Sketch.keys_cons, hkey, Sketch.keys_append, ihbody hbody, ihrest hrest]
    rfl

private theorem jumps_eq (outline : Outline) (level : Nat) :
    outline.jumps = (outline.shape level).filterMap (·.2.jump?) := by
  induction outline generalizing level with
  | done => rfl
  | leaf l rest ih => cases l <;> simp [jumps, shape, Content.jump?, ih level]
  | block b body rest ihbody ihrest =>
    simp [jumps, shape, Content.jump?, ihbody (level + 1), ihrest level]

theorem keys_shape_ofSections {sections : List (String × Outline)}
    (h : ∀ scope ∈ sections, scope.2.WellFormed) (level : Nat) :
    Sketch.keys ((ofSections sections).shape level) = sections.map Prod.fst := by
  induction sections with
  | nil => rfl
  | cons scope rest ih =>
    have hrest := ih fun other hother => h other (List.mem_cons_of_mem scope hother)
    rw [ofSections, shape, Sketch.keys_cons, Sketch.keys_append,
      keys_shape (h scope List.mem_cons_self), hrest]
    rfl

private theorem ofSections_inj {sections others : List (String × Outline)}
    (h : ofSections sections = ofSections others) : sections = others := by
  induction sections generalizing others with
  | nil =>
    cases others with
    | nil => rfl
    | cons => contradiction
  | cons scope rest ih =>
    cases others with
    | nil => contradiction
    | cons other more =>
      injection h with hblock hbody hrest
      injection hblock with hkey
      rw [ih hrest, Prod.ext (Option.some.inj hkey) hbody]

theorem append_ofSections_inj {outline other : Outline} {sections others : List (String × Outline)}
    (h : outline.WellFormed) (hother : other.WellFormed)
    (heq : outline.append (ofSections sections) = other.append (ofSections others)) :
    outline = other ∧ sections = others := by
  induction outline generalizing other with
  | done =>
    cases other with
    | done => exact ⟨rfl, ofSections_inj heq⟩
    | leaf => cases sections <;> contradiction
    | block b =>
      cases sections with
      | nil => contradiction
      | cons scope rest =>
        injection heq with hblock
        subst hblock
        exact hother.1.elim
  | leaf l rest ih =>
    cases other with
    | done => cases others <;> contradiction
    | block => contradiction
    | leaf l' rest' =>
      injection heq with hleaf hrest
      obtain ⟨hsame, hsections⟩ := ih h.2 hother.2 hrest
      exact ⟨by rw [hleaf, hsame], hsections⟩
  | block b body rest _ ih =>
    cases other with
    | leaf => contradiction
    | done =>
      cases others with
      | nil => contradiction
      | cons scope more =>
        injection heq with hblock
        subst hblock
        exact h.1.elim
    | block b' body' rest' =>
      injection heq with hblock hbody hrest
      obtain ⟨hsame, hsections⟩ := ih h.2.2.1 hother.2.2.1 hrest
      exact ⟨by rw [hblock, hbody, hsame], hsections⟩

end Outline

namespace Document

def names (document : Document) : List String := document.sections.map Prod.fst

structure WellFormed (document : Document) : Prop where
  opening : document.opening.WellFormed
  sections : ∀ scope ∈ document.sections,
    Text.Clean scope.1.toList ∧ scope.1 ≠ "" ∧ scope.2.WellFormed
  nodup : document.names.Nodup

def outline (document : Document) : Outline :=
  document.opening.append (.ofSections document.sections)

def shape (document : Document) : List (Nat × Content) :=
  (0, .block (.scope none) []) :: document.outline.shape 1

def jumps (document : Document) : List String := document.outline.jumps

theorem WellFormed.eq {document other : Document} (h : document.WellFormed)
    (hother : other.WellFormed) (heq : document.outline = other.outline) : document = other := by
  obtain ⟨hopening, hsections⟩ := Outline.append_ofSections_inj h.opening hother.opening heq
  obtain ⟨opening, sections⟩ := document
  rw [show opening = _ from hopening, show sections = _ from hsections]

theorem keys_shape {document : Document} (h : document.WellFormed) :
    Sketch.keys document.shape = document.names := by
  rw [shape, Sketch.keys_cons, outline, Outline.shape_append, Sketch.keys_append,
    Outline.keys_shape h.opening,
    Outline.keys_shape_ofSections fun scope hscope => (h.sections scope hscope).2.2]
  rfl

theorem jumps_eq (document : Document) : document.jumps = document.shape.filterMap (·.2.jump?) := by
  rw [shape, List.filterMap_cons_none rfl]
  exact document.outline.jumps_eq 1

end Document

end Dialogue
