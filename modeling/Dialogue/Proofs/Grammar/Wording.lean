import Mathlib.Data.List.TakeWhile
import Dialogue.Proofs.Grammar.Printing

/-! What lines add can be written down again: their texts are clean and are taken for what
they are. -/
namespace Dialogue

open Text (Excerpt)

/-- A node that can be written down. Only the root has no name and no text. -/
def Content.WellFormed : Content → Prop
  | leaf l => l.WellFormed
  | block (.scope key) children =>
    (∀ name, key = some name → Text.Clean name.toList ∧ name ≠ "") ∧ children = []
  | block b children => b.WellFormed ∧ children = []

def Growth.WellFormed : Growth → Prop
  | nothing => True
  | leaf _ added => added.WellFormed
  | command _ text => Text.Clean text.toList ∧ text ≠ ""
  | choice _ text condition => (Block.choice text condition).WellFormed
  | scope _ key _ => Text.Clean key.toList ∧ key ≠ ""

theorem Text.toList_of_ofSuffix {column : Nat} {suffix : List Char} {excerpt : Excerpt}
    (h : Excerpt.ofSuffix column suffix = some excerpt) : excerpt.text.toList = trim suffix := by
  obtain ⟨-, rfl⟩ := eq_of_ofSuffix h
  exact String.toList_ofList

theorem Text.text_ne_of_ofSuffix {column : Nat} {suffix : List Char} {excerpt : Excerpt}
    (h : Excerpt.ofSuffix column suffix = some excerpt) : excerpt.text ≠ "" := by
  obtain ⟨hne, rfl⟩ := eq_of_ofSuffix h
  exact mt String.ofList_eq_empty_iff.mp hne

namespace Guarded

variable {chars before guard : List Char} {parts : Guarded}

theorem exists_dropWhile_eq (before guard : List Char) : ∃ inner,
    (before ++ '#' :: (guard ++ ['#'])).dropWhile (· ≠ '#') = '#' :: inner ∧
      inner.getLast? = some '#' := by
  induction before with
  | nil => exact ⟨guard ++ ['#'], rfl, List.getLast?_concat⟩
  | cons c before ih =>
    by_cases hc : c = '#'
    · subst hc
      refine ⟨before ++ '#' :: (guard ++ ['#']), rfl, ?_⟩
      rw [← List.cons_append, ← List.append_assoc, List.getLast?_concat]
    · rw [List.cons_append, List.dropWhile_cons_of_pos (by simpa using hc)]
      exact ih

theorem split?_ne_none (h : chars = before ++ '#' :: (guard ++ ['#'])) (hline : '\n' ∉ chars) :
    split? chars ≠ none := by
  obtain ⟨inner, hdrop, hlast⟩ := exists_dropWhile_eq before guard
  rw [← h] at hdrop
  have hinner : '\n' ∉ inner.dropLast := by
    intro hin
    have hdropped : '\n' ∈ chars.dropWhile (· ≠ '#') := by
      rw [hdrop]
      exact List.mem_cons_of_mem _ ((List.dropLast_sublist inner).subset hin)
    exact hline ((List.dropWhile_suffix _).subset hdropped)
  unfold split?
  rw [hdrop]
  simp only [if_pos (And.intro hlast hinner)]
  exact nofun

theorem number_sign_notMem (h : split? chars = some parts) : '#' ∉ parts.text := by
  unfold split? at h
  split at h
  · contradiction
  · split at h
    · obtain rfl := Option.some.inj h
      intro hin
      simpa using List.mem_takeWhile_imp hin
    · contradiction

theorem wellFormed (h : split? chars = some parts) (hline : '\n' ∉ chars)
    (hcondition : parts.condition ≠ "") :
    (Block.choice parts.label (some parts.condition)).WellFormed := by
  have hchars := chars_of_split? h
  have htext : '\n' ∉ parts.text := fun hin =>
    hline (hchars ▸ List.mem_append_left _ hin)
  have hguard : '\n' ∉ parts.guard := fun hin =>
    hline (hchars ▸ List.mem_append_right _ (List.mem_cons_of_mem _ (List.mem_append_left _ hin)))
  refine ⟨?_, fun hin => ?_, ?_, hcondition⟩
  · rw [label, String.toList_ofList]
    exact Text.clean_trim htext
  · rw [label, String.toList_ofList] at hin
    exact number_sign_notMem h (Text.mem_of_mem_trim hin)
  · rw [condition, String.toList_ofList]
    exact Text.clean_trim hguard

end Guarded

namespace Line

variable {number : Nat} {text : List Char} {line : Line} {excerpt : Excerpt}
  {options : Options} {judge : Query → Option Rejection} {taken : String → Option Nat}

private theorem newline_notMem_rest (h : read? number text = some line) (hline : '\n' ∉ text) :
    '\n' ∉ line.rest := by
  rw [← chars_of_read? h] at hline
  exact fun hin => hline (List.mem_append_right _ (List.mem_append_right _ hin))

private theorem clean_excerpt (h : read? number text = some line) (hline : '\n' ∉ text)
    (hexcerpt : line.excerpt? = some excerpt) :
    Text.Clean excerpt.text.toList ∧ excerpt.text ≠ "" :=
  Text.clean_of_ofSuffix hexcerpt (newline_notMem_rest h hline)

theorem not_sign_of_text (h : read? number text = some line) (hmarker : line.marker = .text)
    (hexcerpt : line.excerpt? = some excerpt) {marker : Marker} (hne : marker ≠ .text) :
    ¬ marker.sign <+: excerpt.text.toList := by
  obtain ⟨c, after, hrest, hblank, htext⟩ := exists_rest_of_text h hmarker
  rw [Text.toList_of_ofSuffix hexcerpt, hrest, Text.trim, Text.trimStart_cons hblank]
  intro hsign
  have hinitial := hsign.trans (Text.trimEnd_isInitial (c :: after))
  exact Marker.not_sign_iff.mpr htext marker hne hinitial

theorem wellFormed_effect (h : read? number text = some line) (hline : '\n' ∉ text) :
    (line.effect options judge taken).growth.WellFormed := by
  generalize heffect : line.effect options judge taken = effect
  have hacts := line.acts_effect options judge taken
  rw [heffect] at hacts
  cases hacts with
  | nothing => trivial
  | rejected => trivial
  | failed => trivial
  | text excerpt hmarker htext =>
    obtain ⟨hclean, hne⟩ := clean_excerpt h hline htext
    exact ⟨hclean, hne, fun marker hother => not_sign_of_text h hmarker htext hother⟩
  | comment =>
    show Text.Clean _
    cases htext : line.excerpt? with
    | none => exact .nil
    | some excerpt => exact (clean_excerpt h hline htext).1
  | jump key _ hkey =>
    obtain ⟨hclean, hne⟩ := clean_excerpt h hline hkey
    exact ⟨hclean, hne, rfl⟩
  | back => trivial
  | command excerpt _ htext => exact clean_excerpt h hline htext
  | choice excerpt _ htext hplain =>
    obtain ⟨hclean, hne⟩ := clean_excerpt h hline htext
    refine ⟨hclean, hne, fun before guard hguarded => ?_⟩
    exact Guarded.split?_ne_none hguarded hclean.newline_notMem hplain
  | guarded excerpt parts _ htext hparts hcondition _ =>
    exact Guarded.wellFormed hparts (clean_excerpt h hline htext).1.newline_notMem hcondition
  | scope _ name _ hname => exact clean_excerpt h hline hname

end Line
end Dialogue
