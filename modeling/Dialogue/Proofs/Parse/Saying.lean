import Dialogue.Proofs.Grammar.Clean
import Dialogue.Proofs.Parse.Findings

/-! What lines say. A line that adds a node says what the node is, and a line that adds
nothing is reported, so that no text is lost without a word. -/
namespace Dialogue

open Text (Excerpt)

/-- What a line says, or several command lines together, word for word. Only the text behind
a return marker is left out. -/
inductive Line.Say : List Line → Mark → Prop
  | text {line : Line} {text : Excerpt} (hmarker : line.marker = .text)
      (htext : line.excerpt? = some text) :
      Say [line] ⟨line.number, text.column, .leaf (.line text.text)⟩
  | comment {line : Line} {text : Excerpt} (hmarker : line.marker = .comment)
      (htext : line.excerpt?.getD ⟨line.column, ""⟩ = text) :
      Say [line] ⟨line.number, text.column, .leaf (.comment text.text)⟩
  | jump {line : Line} {key : Excerpt} (hmarker : line.marker = .jump)
      (hkey : line.excerpt? = some key) :
      Say [line] ⟨line.number, key.column, .leaf (.jump key.text none)⟩
  | back {line : Line} (hmarker : line.marker = .back) :
      Say [line] ⟨line.number, line.column, .leaf .back⟩
  | scope {line : Line} {name : Excerpt} (hmarker : line.marker = .scope)
      (hname : line.excerpt? = some name) :
      Say [line] ⟨line.number, name.column, .block (.scope (some name.text)) []⟩
  | choice {line : Line} {text : Excerpt} (hmarker : line.marker = .choice)
      (htext : line.excerpt? = some text) (hplain : Guarded.split? text.text.toList = none) :
      Say [line] ⟨line.number, text.column, .block (.choice text.text none) []⟩
  | guarded {line : Line} {text : Excerpt} {parts : Guarded} (hmarker : line.marker = .choice)
      (htext : line.excerpt? = some text) (hparts : Guarded.split? text.text.toList = some parts)
      (hcondition : parts.condition ≠ "") :
      Say [line] ⟨line.number, text.column, .block (.choice parts.label (some parts.condition)) []⟩
  | command {line : Line} {text : Excerpt} (hmarker : line.marker = .command)
      (htext : line.excerpt? = some text) :
      Say [line] ⟨line.number, text.column, .block (.command text.text) []⟩
  /-- A command goes on after a line feed. -/
  | more {lines : List Line} {number column : Nat} {first : String} {line : Line} {text : Excerpt}
      (h : Say lines ⟨number, column, .block (.command first) []⟩)
      (hmarker : line.marker = .command) (htext : line.excerpt? = some text) :
      Say (lines ++ [line])
        ⟨number, column, .block (.command (first ++ "\n" ++ text.text)) []⟩

namespace Line.Say

variable {lines : List Line} {mark : Mark}

theorem exists_first (h : Say lines mark) :
    ∃ first rest, lines = first :: rest ∧ first.number = mark.line := by
  induction h with
  | more _ _ _ ih =>
    obtain ⟨first, rest, rfl, hnumber⟩ := ih
    exact ⟨first, rest ++ [_], rfl, hnumber⟩
  | _ => exact ⟨_, [], rfl, rfl⟩

end Line.Say

def Growth.mark? (number : Nat) : Growth → Option Mark
  | nothing => none
  | leaf column added => some ⟨number, column, .leaf added.unaimed⟩
  | command column text => some ⟨number, column, .block (.command text) []⟩
  | choice column text condition => some ⟨number, column, .block (.choice text condition) []⟩
  | scope column key _ => some ⟨number, column, .block (.scope (some key)) []⟩

/-- What a line does to a sketch: nothing, or it puts a node at the end, or the last node is a
command and goes on. -/
theorem Sketch.grow_cases (entries : List Entry) (depth number : Nat) (growth : Growth) :
    (growth = .nothing ∧ grow entries depth number growth = entries) ∨
    (∃ entry, grow entries depth number growth = entries ++ [entry] ∧
      growth.mark? number = some entry.mark) ∨
    ∃ id column text, growth = .command column text ∧
      extensible? entries (ground entries + depth) = some id ∧
      grow entries depth number growth = entries.modify id (Entry.extend text) := by
  cases growth with
  | nothing => exact .inl ⟨rfl, rfl⟩
  | leaf => exact .inr (.inl ⟨_, rfl, rfl⟩)
  | choice => exact .inr (.inl ⟨_, rfl, rfl⟩)
  | scope => exact .inr (.inl ⟨_, rfl, rfl⟩)
  | command column text =>
    simp only [grow]
    cases hid : extensible? entries (ground entries + depth) with
    | none => exact .inr (.inl ⟨_, rfl, rfl⟩)
    | some id => exact .inr (.inr ⟨id, column, text, rfl, rfl, rfl⟩)

namespace Line

section Effect

variable {options : Options} {judge : Query → Option Rejection} {taken : String → Option Nat}
  {line : Line}

theorem say_effect {mark : Mark}
    (h : (line.effect options judge taken).growth.mark? line.number = some mark) :
    Say [line] mark := by
  generalize heffect : line.effect options judge taken = effect at h
  have hacts := line.acts_effect options judge taken
  rw [heffect] at hacts
  cases hacts with
  | nothing => contradiction
  | rejected => contradiction
  | failed => contradiction
  | text _ hmarker htext => exact Option.some.inj h ▸ .text hmarker htext
  | comment hmarker => exact Option.some.inj h ▸ .comment hmarker rfl
  | jump _ hmarker hkey => exact Option.some.inj h ▸ .jump hmarker hkey
  | back _ hmarker => exact Option.some.inj h ▸ .back hmarker
  | command _ hmarker htext => exact Option.some.inj h ▸ .command hmarker htext
  | choice _ hmarker htext hplain => exact Option.some.inj h ▸ .choice hmarker htext hplain
  | guarded _ _ hmarker htext hparts hcondition =>
    exact Option.some.inj h ▸ .guarded hmarker htext hparts hcondition
  | scope _ _ hmarker hname => exact Option.some.inj h ▸ .scope hmarker hname

theorem effect_of_command {text : Excerpt} (hmarker : line.marker = .command)
    (htext : line.excerpt? = some text) :
    line.effect options judge taken = { growth := .command text.column text.text } := by
  simp only [effect, hmarker, htext]

theorem exists_excerpt_of_command {column : Nat} {text : String}
    (h : (line.effect options judge taken).growth = .command column text) :
    line.marker = .command ∧ line.excerpt? = some ⟨column, text⟩ := by
  generalize heffect : line.effect options judge taken = effect at h
  have hacts := line.acts_effect options judge taken
  rw [heffect] at hacts
  cases hacts with
  | command excerpt hmarker htext =>
    injection h with hcolumn hsame
    exact ⟨hmarker, htext.trans (by rw [← hcolumn, ← hsame])⟩
  | _ => contradiction

theorem excerpt?_ne_none_of_text {number : Nat} {text : List Char}
    (h : read? number text = some line) (hmarker : line.marker = .text) :
    line.excerpt? ≠ none := by
  obtain ⟨c, after, hrest, hblank, _⟩ := exists_rest_of_text h hmarker
  rw [excerpt?, hrest, Excerpt.ofSuffix, Text.trim, Text.trimStart_cons hblank,
    Text.trimEnd_cons hblank]
  exact Option.some_ne_none _

end Effect

section Dropped

variable (options : Options) (judge : Query → Option Rejection) (taken : String → Option Nat)
  (line : Line)

def Reports (effect : Effect) : Prop :=
  effect.growth = .nothing → effect.failure = none →
    ∃ diagnostic ∈ effect.diagnostics, diagnostic.isError = true

theorem reports_bare (hint : String) : Reports (line.bare hint) :=
  fun _ _ => ⟨_, List.mem_singleton_self _, rfl⟩

private theorem reports_scopeEffect : Reports (line.scopeEffect options taken) := by
  unfold scopeEffect
  by_cases hstrict : line.depth ≠ 1 ∧ options.strictIndentation = true
  · rw [if_pos hstrict, misaligned, if_neg hstrict.1]
    exact fun _ _ => ⟨_, List.mem_singleton_self _, rfl⟩
  · rw [if_neg hstrict]
    cases line.excerpt? with
    | none => exact fun _ _ => ⟨_, List.mem_append_right _ (List.mem_singleton_self _), rfl⟩
    | some name =>
      dsimp only
      cases taken name.text with
      | none =>
        intro hgrowth
        contradiction
      | some first =>
        cases options.duplicates with
        | fail =>
          intro _ hfailure
          contradiction
        | report =>
          intro hgrowth
          contradiction

private theorem reports_choiceEffect : Reports (line.choiceEffect judge) := by
  unfold choiceEffect
  cases line.excerpt? with
  | none => exact line.reports_bare _
  | some choice =>
    dsimp only
    cases Guarded.split? choice.text.toList with
    | none => exact nofun
    | some parts =>
      dsimp only
      unfold guardedEffect
      by_cases hcondition : parts.condition = ""
      · rw [if_pos hcondition]
        exact fun _ _ => ⟨_, List.mem_singleton_self _, rfl⟩
      · rw [if_neg hcondition]
        cases judge (.condition parts.condition) with
        | some rejection => exact fun _ _ => ⟨_, List.mem_singleton_self _, rfl⟩
        | none => exact nofun

theorem reports_effect {number : Nat} {text : List Char} (h : read? number text = some line) :
    Reports (line.effect options judge taken) := by
  unfold effect
  cases hmarker : line.marker with
  | scope => exact line.reports_scopeEffect options taken
  | choice => exact line.reports_choiceEffect judge
  | comment => exact nofun
  | back => exact nofun
  | command =>
    cases line.excerpt? with
    | none => exact line.reports_bare _
    | some => exact nofun
  | jump =>
    cases line.excerpt? with
    | none => exact line.reports_bare _
    | some => exact nofun
  | text =>
    cases htext : line.excerpt? with
    | none => exact absurd htext (excerpt?_ne_none_of_text h hmarker)
    | some => exact nofun

end Dropped

end Line
end Dialogue
