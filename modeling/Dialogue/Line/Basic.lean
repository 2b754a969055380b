import Dialogue.Text.Excerpt
import Dialogue.Line.Marker

/-! Lines of a script. A line that is not blank is cut into its indentation, its
marker and the rest; nesting, positions and text are read off these parts. -/
namespace Dialogue

open Text (isBlank byteLength Excerpt)

theorem Marker.byteLength_sign (marker : Marker) : byteLength marker.sign = marker.width := by
  cases marker <;> rfl

structure Line where
  number : Nat
  lead : List Char
  marker : Marker
  rest : List Char
  deriving Repr, DecidableEq

namespace Line

def read? (number : Nat) (text : List Char) : Option Line :=
  match Text.trimStart text with
  | [] => none
  | c :: after =>
    let parts := Marker.split (c :: after)
    some { number, lead := text.takeWhile isBlank, marker := parts.1, rest := parts.2 }

def chars (line : Line) : List Char := line.lead ++ (line.marker.sign ++ line.rest)

/-- One more than the number of leading tabs. Other leading blanks do not nest. -/
def depth (line : Line) : Nat := 1 + line.lead.count '\t'

def indent (line : Line) : Nat := byteLength line.lead

def column (line : Line) : Nat := line.lead.length

def restColumn (line : Line) : Nat := line.column + line.marker.width

def excerpt? (line : Line) : Option Excerpt := Excerpt.ofSuffix line.restColumn line.rest

theorem read?_eq_none_iff {number : Nat} {text : List Char} :
    read? number text = none ↔ ∀ c ∈ text, isBlank c = true := by
  rw [← Text.trimStart_eq_nil_iff]
  unfold read?
  split <;> simp_all

theorem chars_of_read? {number : Nat} {text : List Char} {line : Line}
    (h : read? number text = some line) : line.chars = text := by
  unfold read? at h
  split at h
  · contradiction
  · next c after hstart =>
    obtain rfl := Option.some.inj h
    show text.takeWhile isBlank ++ ((Marker.split (c :: after)).1.sign ++
      (Marker.split (c :: after)).2) = text
    rw [Marker.sign_append_split, ← hstart]
    exact Text.takeWhile_append_trimStart text

theorem exists_rest_of_text {number : Nat} {text : List Char} {line : Line}
    (h : read? number text = some line) (hmarker : line.marker = .text) :
    ∃ c after, line.rest = c :: after ∧ isBlank c = false ∧
      (Marker.split (c :: after)).1 = .text := by
  unfold read? at h
  split at h
  · contradiction
  · next c after hstart =>
    obtain rfl := Option.some.inj h
    have hsame := Marker.sign_append_split (c :: after)
    rw [show (Marker.split (c :: after)).1 = .text from hmarker] at hsame
    exact ⟨c, after, hsame, Text.isBlank_head_trimStart hstart, hmarker⟩

/-- The excerpt of a line is what follows the byte offset right after its marker. -/
theorem excerpt?_eq_excerptAt (line : Line) :
    line.excerpt? = Text.excerptAt line.chars (line.indent + line.marker.width) := by
  have hbytes : line.indent + line.marker.width = byteLength (line.lead ++ line.marker.sign) := by
    rw [Text.byteLength_append, indent, Marker.byteLength_sign]
  have hcolumn : line.restColumn = (line.lead ++ line.marker.sign).length := by
    simp [restColumn, column, Marker.width]
  rw [chars, ← List.append_assoc, hbytes, Text.excerptAt_byteLength, excerpt?, hcolumn]

end Line
end Dialogue
