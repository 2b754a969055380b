import Dialogue.Proofs.Grammar.Wording

/-! Whether a document is well formed can be computed. -/
namespace Dialogue

instance (text : List Char) : Decidable (Text.Clean text) :=
  decidable_of_iff (Text.trim text = text ∧ '\n' ∉ text)
    ⟨fun h => ⟨h.1, h.2⟩, fun h => ⟨h.trim_eq, h.newline_notMem⟩⟩

theorem Guarded.split?_eq_none_iff {chars : List Char} (hline : '\n' ∉ chars) :
    split? chars = none ↔ ∀ before guard, chars ≠ before ++ '#' :: (guard ++ ['#']) := by
  constructor
  · intro h before guard heq
    exact split?_ne_none heq hline h
  · intro h
    cases hsplit : split? chars with
    | none => rfl
    | some parts => exact absurd (chars_of_split? hsplit).symm (h parts.text parts.guard)

instance : (leaf : Leaf) → Decidable leaf.WellFormed
  | .line text =>
    decidable_of_iff (Text.Clean text.toList ∧ text ≠ "" ∧ (Marker.split text.toList).1 = .text)
      (and_congr_right fun _ => and_congr_right fun _ => Marker.not_sign_iff.symm)
  | .comment text => inferInstanceAs (Decidable (Text.Clean text.toList))
  | .jump key target =>
    inferInstanceAs (Decidable (Text.Clean key.toList ∧ key ≠ "" ∧ target = none))
  | .back => .isTrue trivial

/-- The pieces of a command can only be its lines. -/
theorem Block.wellFormed_command_iff {text : String} : (command text).WellFormed ↔
    Text.splitLines text.toList ≠ [] ∧
      text.toList = List.intercalate ['\n'] (Text.splitLines text.toList) ∧
      ∀ piece ∈ Text.splitLines text.toList, Text.Clean piece ∧ piece ≠ [] := by
  constructor
  · rintro ⟨pieces, hne, htext, hpieces⟩
    rw [htext, Text.splitLines_intercalate hne hpieces]
    exact ⟨hne, rfl, hpieces⟩
  · intro h
    exact ⟨_, h⟩

instance : (block : Block) → Decidable block.WellFormed
  | .scope _ => .isFalse id
  | .command _ => decidable_of_iff _ Block.wellFormed_command_iff.symm
  | .choice text none =>
    decidable_of_iff (Text.Clean text.toList ∧ text ≠ "" ∧ Guarded.split? text.toList = none)
      (and_congr_right fun h => and_congr_right fun _ =>
        Guarded.split?_eq_none_iff h.newline_notMem)
  | .choice text (some guard) =>
    inferInstanceAs (Decidable (Text.Clean text.toList ∧ '#' ∉ text.toList ∧
      Text.Clean guard.toList ∧ guard ≠ ""))

example : ¬ (Block.choice "ask#if#" none).WellFormed ∧
    (Block.choice "ask" (some "if")).WellFormed := by decide

def Outline.decidableWellFormed : (outline : Outline) → Decidable outline.WellFormed
  | .done => .isTrue trivial
  | .leaf l rest =>
    have := decidableWellFormed rest
    inferInstanceAs (Decidable (l.WellFormed ∧ rest.WellFormed))
  | .block b body rest =>
    have := decidableWellFormed body
    have := decidableWellFormed rest
    inferInstanceAs (Decidable (b.WellFormed ∧ body.WellFormed ∧ rest.WellFormed ∧
      (b.isCommand = true → body = .done → rest.startsWithCommand = false)))

instance (outline : Outline) : Decidable outline.WellFormed := outline.decidableWellFormed

instance (document : Document) : Decidable document.WellFormed :=
  decidable_of_iff (document.opening.WellFormed ∧ (∀ scope ∈ document.sections,
      Text.Clean scope.1.toList ∧ scope.1 ≠ "" ∧ scope.2.WellFormed) ∧ document.names.Nodup)
    ⟨fun h => ⟨h.1, h.2.1, h.2.2⟩, fun h => ⟨h.opening, h.sections, h.nodup⟩⟩

end Dialogue
