import Dialogue.Text.Blank

/-! Guarded choices. A choice text that ends with a number sign and holds an
earlier one is cut at its first and its last number sign; what stands between
them is the guard. A line feed in the guard makes the text a plain choice. -/
namespace Dialogue

open Text (isBlank)

structure Guarded where
  text : List Char
  guard : List Char
  deriving Repr, DecidableEq

namespace Guarded

def split? (chars : List Char) : Option Guarded :=
  match chars.dropWhile (· ≠ '#') with
  | [] => none
  | _ :: inner =>
    if inner.getLast? = some '#' ∧ '\n' ∉ inner.dropLast then
      some ⟨chars.takeWhile (· ≠ '#'), inner.dropLast⟩
    else none

def chars (parts : Guarded) : List Char := parts.text ++ '#' :: (parts.guard ++ ['#'])

def label (parts : Guarded) : String := String.ofList (Text.trim parts.text)

def condition (parts : Guarded) : String := String.ofList (Text.trim parts.guard)

/-- Number of characters before the condition. A blank guard counts in full. -/
def offset (parts : Guarded) : Nat :=
  parts.text.length + 1 + (parts.guard.takeWhile isBlank).length

theorem chars_of_split? {chars : List Char} {parts : Guarded} (h : split? chars = some parts) :
    parts.chars = chars := by
  unfold split? at h
  split at h
  case h_1 => contradiction
  case h_2 c inner hdrop =>
    split at h
    case isFalse => contradiction
    case isTrue hlast =>
      obtain rfl := Option.some.inj h
      have hc : c = '#' := by
        have hhead := List.head?_dropWhile_not (fun a : Char => decide (a ≠ '#')) chars
        rw [hdrop] at hhead
        simpa using hhead
      have hinner : inner.dropLast ++ ['#'] = inner := by
        obtain ⟨before, rfl⟩ := List.getLast?_eq_some_iff.mp hlast.1
        rw [List.dropLast_concat]
      have hrest : '#' :: inner = chars.dropWhile (· ≠ '#') := by rw [hdrop, hc]
      show chars.takeWhile (· ≠ '#') ++ '#' :: (inner.dropLast ++ ['#']) = chars
      rw [hinner, hrest]
      exact List.takeWhile_append_dropWhile

end Guarded
end Dialogue
