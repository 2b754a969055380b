/-! The blank characters of a script, and trimming. A character is blank if
it has the Unicode property White_Space: zero-width spaces, the byte-order mark and
the information separators U+001C to U+001F are ordinary text. -/
namespace Dialogue.Text

/-- Code points with the property White_Space, as ranges with both ends included. -/
def blankRanges : List (Nat × Nat) :=
  [(0x09, 0x0D), (0x20, 0x20), (0x85, 0x85), (0xA0, 0xA0), (0x1680, 0x1680),
   (0x2000, 0x200A), (0x2028, 0x2029), (0x202F, 0x202F), (0x205F, 0x205F), (0x3000, 0x3000)]

def isBlank (c : Char) : Bool :=
  blankRanges.any fun range => range.1 ≤ c.toNat && c.toNat ≤ range.2

def trimStart (text : List Char) : List Char := text.dropWhile isBlank

def trimEnd (text : List Char) : List Char := (text.reverse.dropWhile isBlank).reverse

def trim (text : List Char) : List Char := trimEnd (trimStart text)

@[simp] theorem trim_nil : trim [] = [] := rfl

theorem takeWhile_append_trimStart (text : List Char) :
    text.takeWhile isBlank ++ trimStart text = text :=
  List.takeWhile_append_dropWhile

theorem trimStart_eq_nil_iff {text : List Char} :
    trimStart text = [] ↔ ∀ c ∈ text, isBlank c = true := by
  induction text with
  | nil => exact ⟨fun _ _ h => (nomatch h), fun _ => rfl⟩
  | cons c text ih =>
    rw [trimStart, List.dropWhile_cons, List.forall_mem_cons]
    by_cases hc : isBlank c = true
    · rw [if_pos hc, and_iff_right hc]
      exact ih
    · rw [if_neg hc]
      exact ⟨fun h => (nomatch h), fun h => absurd h.1 hc⟩

theorem isBlank_head_trimStart {text rest : List Char} {c : Char}
    (h : trimStart text = c :: rest) : isBlank c = false := by
  induction text with
  | nil => contradiction
  | cons d text ih =>
    rw [trimStart, List.dropWhile_cons] at h
    by_cases hd : isBlank d = true
    · rw [if_pos hd] at h
      exact ih h
    · rw [if_neg hd] at h
      obtain ⟨rfl, _⟩ := List.cons.inj h
      exact Bool.not_eq_true _ ▸ hd

end Dialogue.Text
