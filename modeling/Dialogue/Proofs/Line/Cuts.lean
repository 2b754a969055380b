import Dialogue.Proofs.Line.Places

/-! Cutting a text at a byte offset. An offset that is past the end or inside a character cuts
nothing off; every other one leaves a text that is blanks, an excerpt and blanks again, in one way
only, unless all of it is blank. -/
namespace Dialogue.Text

variable {text before after lead rest inner piece suffix : List Char} {offset column : Nat}
  {excerpt : Excerpt}

theorem byteLength_eq (text : List Char) : byteLength text = (String.ofList text).utf8ByteSize := by
  induction text with
  | nil => simp
  | cons c text ih =>
    have hcons : String.ofList (c :: text) = String.singleton c ++ String.ofList text := by
      apply String.toList_injective
      simp
    rw [byteLength_cons, ih, hcons, String.utf8ByteSize_append, String.utf8ByteSize_singleton]

theorem cutAt_eq_some_iff : cutAt offset text = some (before, after) ↔
    text = before ++ after ∧ byteLength before = offset := by
  constructor
  · exact eq_append_of_cutAt
  · rintro ⟨rfl, rfl⟩
    exact cutAt_byteLength ..

def SplitsCharacter (offset : Nat) (text : List Char) : Prop :=
  ∃ before c after, text = before ++ c :: after ∧
    (String.ofList before).utf8ByteSize < offset ∧
      offset < (String.ofList before).utf8ByteSize + c.utf8Size

private theorem splitsCharacter_cons_iff {c : Char} : SplitsCharacter offset (c :: text) ↔
    (0 < offset ∧ offset < c.utf8Size) ∨
      (c.utf8Size ≤ offset ∧ SplitsCharacter (offset - c.utf8Size) text) := by
  simp only [SplitsCharacter, ← byteLength_eq]
  constructor
  · rintro ⟨before, d, after, htext, hlo, hhi⟩
    cases before with
    | nil =>
      obtain ⟨rfl, -⟩ := List.cons.inj htext
      left
      simpa using And.intro hlo hhi
    | cons e before =>
      obtain ⟨rfl, rfl⟩ := List.cons.inj htext
      rw [byteLength_cons] at hlo hhi
      right
      refine ⟨by omega, before, d, after, rfl, ?_, ?_⟩ <;> omega
  · rintro (⟨hlo, hhi⟩ | ⟨hle, before, d, after, rfl, hlo, hhi⟩)
    · refine ⟨[], c, text, rfl, ?_, ?_⟩ <;> simpa
    · refine ⟨c :: before, d, after, rfl, ?_, ?_⟩ <;> rw [byteLength_cons] <;> omega

theorem cutAt_eq_none_iff :
    cutAt offset text = none ↔ byteLength text < offset ∨ SplitsCharacter offset text := by
  induction text generalizing offset with
  | nil =>
    have hsplits : ¬ SplitsCharacter offset [] := by
      rintro ⟨before, c, after, htext, -⟩
      simp at htext
    cases offset <;> simp [cutAt, hsplits]
  | cons c text ih =>
    have hpos := c.utf8Size_pos
    rw [splitsCharacter_cons_iff, byteLength_cons]
    cases offset with
    | zero =>
      simp [Nat.ne_of_gt hpos]
    | succ n =>
      by_cases hle : c.utf8Size ≤ n + 1
      · have hcut : cutAt (n + 1) (c :: text) = none ↔ cutAt (n + 1 - c.utf8Size) text = none := by
          rw [cutAt, if_pos hle, Option.map_eq_none_iff]
        have hlt : byteLength text < n + 1 - c.utf8Size ↔ c.utf8Size + byteLength text < n + 1 := by
          omega
        have hinside : ¬ n + 1 < c.utf8Size := by omega
        rw [hcut, ih, hlt]
        simp only [hle, hinside, and_false, true_and, false_or]
      · have hcut : cutAt (n + 1) (c :: text) = none := by rw [cutAt, if_neg hle]
        apply iff_of_true hcut
        right; left
        omega

/-- The offsets at which a text can be cut are the positions of its encoding in UTF-8. -/
theorem exists_cutAt_iff : (∃ cut, cutAt offset text = some cut) ↔
    String.Pos.Raw.IsValid (String.ofList text) ⟨offset⟩ := by
  rw [String.Pos.Raw.isValid_iff_exists_append]
  constructor
  · rintro ⟨⟨before, after⟩, hcut⟩
    obtain ⟨rfl, rfl⟩ := cutAt_eq_some_iff.mp hcut
    refine ⟨.ofList before, .ofList after, String.ofList_append, ?_⟩
    apply String.Pos.Raw.ext
    exact byteLength_eq before
  · rintro ⟨front, back, htext, hoffset⟩
    refine ⟨(front.toList, back.toList), cutAt_eq_some_iff.mpr ⟨?_, ?_⟩⟩
    · simpa using congrArg String.toList htext
    · rw [byteLength_eq, String.ofList_toList]
      exact (congrArg String.Pos.Raw.byteIdx hoffset).symm

theorem indented_trimStart (h : ∃ c ∈ text, isBlank c = false) :
    Indented text (text.takeWhile isBlank) (trimStart text) where
  text_eq := (takeWhile_append_trimStart text).symm
  lead_blank c hc := List.mem_takeWhile_imp hc
  rest_head := by
    obtain ⟨c, hc, hword⟩ := h
    cases hstart : trimStart text with
    | nil =>
      rw [trimStart_eq_nil_iff.mp hstart c hc] at hword
      contradiction
    | cons d rest => exact ⟨d, rfl, isBlank_head_trimStart hstart⟩

/-- Blanks, a text that neither starts nor ends with a blank, and blanks. -/
structure Framed (text lead inner after : List Char) : Prop where
  text_eq : text = lead ++ (inner ++ after)
  lead_blank : ∀ c ∈ lead, isBlank c = true
  inner_solid : Solid inner
  after_blank : ∀ c ∈ after, isBlank c = true

private theorem Framed.indented (h : Framed text lead inner after) :
    Indented text lead (inner ++ after) where
  text_eq := h.text_eq
  lead_blank := h.lead_blank
  rest_head := by
    obtain ⟨c, hhead, hc⟩ := h.inner_solid.head
    exact ⟨c, by rw [List.head?_append, hhead, Option.some_or], hc⟩

private theorem Framed.trim_eq (h : Framed text lead inner after) : trim text = inner := by
  rw [h.text_eq]
  exact h.inner_solid.trim_append h.lead_blank h.after_blank

section Piece

variable (hpiece : Solid piece)

include hpiece

theorem exists_append_of_lead_blank (hlead : ∀ c ∈ lead, isBlank c = true)
    (h : lead ++ rest = before ++ (piece ++ after)) : ∃ more, rest = more ++ (piece ++ after) := by
  rcases List.append_eq_append_iff.mp h with ⟨more, -, hrest⟩ | ⟨more, hsplit, hback⟩
  · exact ⟨more, hrest⟩
  · cases more with
    | nil => exact ⟨[], hback.symm⟩
    | cons d more =>
      obtain ⟨c, hhead, hc⟩ := hpiece.head
      obtain ⟨tail, rfl⟩ := List.head?_eq_some_iff.mp hhead
      obtain ⟨rfl, -⟩ := List.cons.inj hback
      rw [hlead c (by simp [hsplit])] at hc
      contradiction

theorem exists_append_of_after_blank {more : List Char} (hafter : ∀ c ∈ after, isBlank c = true)
    (h : inner ++ after = before ++ (piece ++ more)) :
    ∃ back, inner = before ++ (piece ++ back) := by
  have hreverse : after.reverse ++ inner.reverse =
      more.reverse ++ (piece.reverse ++ before.reverse) := by
    simpa using congrArg List.reverse h
  have hblank : ∀ c ∈ after.reverse, isBlank c = true := by simpa using hafter
  obtain ⟨back, hback⟩ := exists_append_of_lead_blank hpiece.reverse hblank hreverse
  refine ⟨back.reverse, ?_⟩
  simpa using congrArg List.reverse hback

theorem Framed.holds_piece (h : Framed text lead inner after) (hinside : piece <:+: text) :
    piece <:+: inner := by
  obtain ⟨front, back, htext⟩ := hinside
  rw [h.text_eq, List.append_assoc] at htext
  obtain ⟨more, hmore⟩ := exists_append_of_lead_blank hpiece h.lead_blank htext.symm
  obtain ⟨behind, hinner⟩ := exists_append_of_after_blank hpiece h.after_blank hmore
  exact ⟨more, behind, by rw [hinner, List.append_assoc]⟩

end Piece

theorem ofSuffix_eq_none_iff :
    Excerpt.ofSuffix column suffix = none ↔ ∀ c ∈ suffix, isBlank c = true := by
  simp [ofSuffix_eq, ← trim_eq_nil_iff]

theorem ofSuffix_eq_some_iff : Excerpt.ofSuffix column suffix = some excerpt ↔
    ∃ lead after, Framed suffix lead excerpt.text.toList after ∧
      excerpt.column = column + lead.length := by
  constructor
  · intro h
    obtain ⟨hcolumn, after, hsuffix, hafter⟩ := exists_append_of_ofSuffix h
    refine ⟨_, after, ?_, hcolumn⟩
    exact ⟨hsuffix, fun c hc => List.mem_takeWhile_imp hc, solid_of_ofSuffix h, hafter⟩
  · rintro ⟨lead, after, hframed, hcolumn⟩
    rw [ofSuffix_eq, hframed.trim_eq, if_neg hframed.inner_solid.ne_nil, hframed.indented.eq.1,
      ← hcolumn, String.ofList_toList]

/-- The excerpt behind an offset, worked out from lengths in bytes: what trimming the start takes
away is skipped, and the column counts the characters up to there. -/
def measuredExcerpt? (text : List Char) (offset : Nat) : Option Excerpt :=
  (cutAt offset text).bind fun cut =>
    if trim cut.2 = [] then none
    else
      let skipped := byteLength cut.2 - byteLength (trimStart cut.2)
      (cutAt (offset + skipped) text).map fun front =>
        ⟨front.1.length, String.ofList (trim cut.2)⟩

theorem excerptAt_eq_measuredExcerpt? (text : List Char) (offset : Nat) :
    excerptAt text offset = measuredExcerpt? text offset := by
  unfold excerptAt measuredExcerpt?
  cases hcut : cutAt offset text with
  | none => rfl
  | some cut =>
    obtain ⟨before, suffix⟩ := cut
    obtain ⟨rfl, rfl⟩ := cutAt_eq_some_iff.mp hcut
    have hskipped : byteLength suffix - byteLength (trimStart suffix) =
        byteLength (suffix.takeWhile isBlank) := by
      have hsuffix := congrArg byteLength (takeWhile_append_trimStart suffix)
      rw [byteLength_append] at hsuffix
      omega
    have hbehind : cutAt (byteLength before + byteLength (suffix.takeWhile isBlank))
        (before ++ suffix) = some (before ++ suffix.takeWhile isBlank, trimStart suffix) := by
      rw [cutAt_eq_some_iff, List.append_assoc, takeWhile_append_trimStart]
      exact ⟨rfl, byteLength_append ..⟩
    simp [ofSuffix_eq, hskipped, hbehind]

/-- What is found behind a byte offset. -/
structure Excerpted (text : List Char) (offset : Nat) : Prop where
  eq_none_iff : excerptAt text offset = none ↔
    (String.ofList text).utf8ByteSize < offset ∨ SplitsCharacter offset text ∨
      ∃ before suffix, text = before ++ suffix ∧ (String.ofList before).utf8ByteSize = offset ∧
        ∀ c ∈ suffix, isBlank c = true
  eq_some_iff : ∀ excerpt, excerptAt text offset = some excerpt ↔
    ∃ before suffix lead after, text = before ++ suffix ∧
      (String.ofList before).utf8ByteSize = offset ∧
      Framed suffix lead excerpt.text.toList after ∧ excerpt.column = (before ++ lead).length
  maximal : ∀ excerpt before suffix piece, excerptAt text offset = some excerpt →
    text = before ++ suffix → (String.ofList before).utf8ByteSize = offset →
      Solid piece → piece <:+: suffix → piece <:+: excerpt.text.toList
  isValid_iff : String.Pos.Raw.IsValid (String.ofList text) ⟨offset⟩ ↔
    ¬ (String.ofList text).utf8ByteSize < offset ∧ ¬ SplitsCharacter offset text
  measured : excerptAt text offset = measuredExcerpt? text offset

theorem excerptAt_of_eq_append (htext : text = before ++ suffix)
    (hoffset : byteLength before = offset) :
    excerptAt text offset = Excerpt.ofSuffix before.length suffix := by
  rw [htext, ← hoffset, excerptAt_byteLength]

private theorem excerptAt_eq_none_iff : excerptAt text offset = none ↔
    cutAt offset text = none ∨ ∃ before suffix, text = before ++ suffix ∧
      byteLength before = offset ∧ ∀ c ∈ suffix, isBlank c = true := by
  cases hcut : cutAt offset text with
  | none => simp [excerptAt, hcut]
  | some cut =>
    obtain ⟨before, suffix⟩ := cut
    obtain ⟨htext, hoffset⟩ := cutAt_eq_some_iff.mp hcut
    rw [excerptAt_of_eq_append htext hoffset, ofSuffix_eq_none_iff]
    constructor
    · exact fun hblank => .inr ⟨before, suffix, htext, hoffset, hblank⟩
    · rintro (hnone | ⟨front, back, hback, hfront, hblank⟩)
      · contradiction
      · have hsame := hcut.symm.trans (cutAt_eq_some_iff.mpr ⟨hback, hfront⟩)
        obtain ⟨-, rfl⟩ := Prod.mk.inj (Option.some.inj hsame)
        exact hblank

private theorem excerptAt_eq_some_iff : excerptAt text offset = some excerpt ↔
    ∃ before suffix lead after, text = before ++ suffix ∧ byteLength before = offset ∧
      Framed suffix lead excerpt.text.toList after ∧ excerpt.column = (before ++ lead).length := by
  simp only [List.length_append]
  constructor
  · intro h
    obtain ⟨⟨before, suffix⟩, hcut, hsuffix⟩ := Option.bind_eq_some_iff.mp h
    obtain ⟨htext, hoffset⟩ := cutAt_eq_some_iff.mp hcut
    obtain ⟨lead, after, hframed, hcolumn⟩ := ofSuffix_eq_some_iff.mp hsuffix
    exact ⟨before, suffix, lead, after, htext, hoffset, hframed, hcolumn⟩
  · rintro ⟨before, suffix, lead, after, htext, hoffset, hframed, hcolumn⟩
    rw [excerptAt_of_eq_append htext hoffset, ofSuffix_eq_some_iff]
    exact ⟨lead, after, hframed, hcolumn⟩

theorem excerpted (text : List Char) (offset : Nat) : Excerpted text offset := by
  constructor
  · simp only [← byteLength_eq]
    rw [excerptAt_eq_none_iff, cutAt_eq_none_iff, or_assoc]
  · simp only [← byteLength_eq]
    exact fun excerpt => excerptAt_eq_some_iff
  · intro excerpt before suffix piece hexcerpt htext hoffset hpiece hinside
    rw [← byteLength_eq] at hoffset
    rw [excerptAt_of_eq_append htext hoffset, ofSuffix_eq_some_iff] at hexcerpt
    obtain ⟨lead, after, hframed, -⟩ := hexcerpt
    exact hframed.holds_piece hpiece hinside
  · rw [← byteLength_eq, ← exists_cutAt_iff, ← Option.ne_none_iff_exists', Ne, cutAt_eq_none_iff,
      not_or]
  · exact excerptAt_eq_measuredExcerpt? text offset

end Dialogue.Text
