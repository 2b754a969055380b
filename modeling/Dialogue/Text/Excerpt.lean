import Dialogue.Text.Blank

/-! Trimmed pieces of a text and the columns where they start. Columns count
characters, offsets count UTF-8 bytes; `cutAt` is the one place where the two meet. -/
namespace Dialogue.Text

def byteLength : List Char → Nat
  | [] => 0
  | c :: text => c.utf8Size + byteLength text

@[simp] theorem byteLength_nil : byteLength [] = 0 := rfl

@[simp] theorem byteLength_cons (c : Char) (text : List Char) :
    byteLength (c :: text) = c.utf8Size + byteLength text := rfl

@[simp] theorem byteLength_append (a b : List Char) :
    byteLength (a ++ b) = byteLength a + byteLength b := by
  induction a with
  | nil => rw [List.nil_append, byteLength_nil, Nat.zero_add]
  | cons c a ih => rw [List.cons_append, byteLength_cons, byteLength_cons, ih, Nat.add_assoc]

/-- Cuts a text at a byte offset. There is no cut past the end or inside a character. -/
def cutAt : Nat → List Char → Option (List Char × List Char)
  | 0, text => some ([], text)
  | _ + 1, [] => none
  | offset + 1, c :: text =>
    if c.utf8Size ≤ offset + 1 then
      (cutAt (offset + 1 - c.utf8Size) text).map fun cut => (c :: cut.1, cut.2)
    else none

@[simp] theorem cutAt_zero (text : List Char) : cutAt 0 text = some ([], text) := by
  cases text <;> rfl

@[simp] theorem cutAt_byteLength (before after : List Char) :
    cutAt (byteLength before) (before ++ after) = some (before, after) := by
  induction before with
  | nil => simp
  | cons c before ih =>
    have hc : 0 < c.utf8Size := Char.utf8Size_pos c
    obtain ⟨n, hn⟩ : ∃ n, c.utf8Size + byteLength before = n + 1 :=
      ⟨c.utf8Size + byteLength before - 1, by omega⟩
    have hle : c.utf8Size ≤ n + 1 := by omega
    have hsub : n + 1 - c.utf8Size = byteLength before := by omega
    simp [hn, cutAt, hle, hsub, ih]

theorem eq_append_of_cutAt {offset : Nat} {text before after : List Char}
    (h : cutAt offset text = some (before, after)) :
    text = before ++ after ∧ byteLength before = offset := by
  induction text generalizing offset before with
  | nil =>
    cases offset with
    | zero => simp_all [cutAt]
    | succ n => simp [cutAt] at h
  | cons c text ih =>
    cases offset with
    | zero => simp_all [cutAt]
    | succ n =>
      simp only [cutAt] at h
      split at h
      case isFalse => simp at h
      case isTrue hle =>
        obtain ⟨cut, hcut, heq⟩ := Option.map_eq_some_iff.mp h
        obtain ⟨rfl, rfl⟩ := Prod.mk.inj heq
        obtain ⟨htext, hlen⟩ := ih hcut
        exact ⟨by simp [← htext], by simp [hlen]; omega⟩

structure Excerpt where
  column : Nat
  text : String
  deriving Repr, DecidableEq

/-- What is left of a suffix that starts at `column` once it is trimmed; none if
only blanks are left. -/
def Excerpt.ofSuffix (column : Nat) (suffix : List Char) : Option Excerpt :=
  match trim suffix with
  | [] => none
  | c :: text => some ⟨column + (suffix.takeWhile isBlank).length, String.ofList (c :: text)⟩

def excerptAt (text : List Char) (offset : Nat) : Option Excerpt :=
  (cutAt offset text).bind fun cut => Excerpt.ofSuffix cut.1.length cut.2

theorem excerptAt_byteLength (before after : List Char) :
    excerptAt (before ++ after) (byteLength before) = Excerpt.ofSuffix before.length after := by
  simp [excerptAt]

end Dialogue.Text
