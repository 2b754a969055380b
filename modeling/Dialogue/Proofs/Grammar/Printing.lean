import Dialogue.Proofs.Grammar.Document
import Dialogue.Proofs.Parse.Effect

/-! How documents are written: a line for each node, a line for each piece of a command, and a
tab for each command or choice around it. What a written line does is to add its node. -/
namespace Dialogue

def Leaf.written : Leaf → List Char
  | line text => text.toList
  | comment text => Marker.comment.sign ++ ' ' :: text.toList
  | jump key _ => Marker.jump.sign ++ ' ' :: key.toList
  | back => Marker.back.sign

def Block.written : Block → List (List Char)
  | scope key => [Marker.scope.sign ++ ' ' :: (key.getD "").toList]
  | command text => (Text.splitLines text.toList).map fun piece =>
      Marker.command.sign ++ ' ' :: piece
  | choice text none => [Marker.choice.sign ++ ' ' :: text.toList]
  | choice text (some guard) =>
      [Marker.choice.sign ++ ' ' :: Guarded.chars ⟨text.toList, guard.toList⟩]

def indented (tabs : Nat) (line : List Char) : List Char := List.replicate tabs '\t' ++ line

def Outline.written (tabs : Nat) : Outline → List (List Char)
  | done => []
  | leaf l rest => indented tabs l.written :: rest.written tabs
  | block b body rest =>
    b.written.map (indented tabs) ++ (body.written (tabs + 1) ++ rest.written tabs)

namespace Document

def written (document : Document) : List (List Char) :=
  document.opening.written 0 ++ document.sections.flatMap fun scope =>
    (Block.scope (some scope.1)).written ++ scope.2.written 0

def print (document : Document) : String :=
  String.ofList (document.written.flatMap (· ++ ['\n']))

end Document

namespace Marker

theorem split_sign_append {marker : Marker} (h : marker ≠ .text) (rest : List Char) :
    split (marker.sign ++ rest) = (marker, rest) := by
  cases marker with
  | text => contradiction
  | _ => rfl

theorem split_of_not_sign {chars : List Char}
    (h : ∀ marker : Marker, marker ≠ .text → ¬ marker.sign <+: chars) :
    split chars = (.text, chars) := by
  unfold split
  split
  · exact absurd ⟨_, rfl⟩ (h .scope nofun)
  · exact absurd ⟨_, rfl⟩ (h .command nofun)
  · exact absurd ⟨_, rfl⟩ (h .choice nofun)
  · exact absurd ⟨_, rfl⟩ (h .comment nofun)
  · exact absurd ⟨_, rfl⟩ (h .jump nofun)
  · exact absurd ⟨_, rfl⟩ (h .back nofun)
  · rfl

theorem not_sign_iff {chars : List Char} :
    (∀ marker : Marker, marker ≠ .text → ¬ marker.sign <+: chars) ↔ (split chars).1 = .text := by
  constructor
  · intro h
    rw [split_of_not_sign h]
  · rintro h marker hne ⟨rest, rfl⟩
    rw [split_sign_append hne] at h
    exact hne h

private theorem exists_sign_eq_cons {marker : Marker} (h : marker ≠ .text) :
    ∃ c rest, marker.sign = c :: rest ∧ Text.isBlank c = false := by
  cases marker with
  | text => contradiction
  | scope => exact ⟨_, _, rfl, by decide⟩
  | command => exact ⟨_, _, rfl, by decide⟩
  | choice => exact ⟨_, _, rfl, by decide⟩
  | comment => exact ⟨_, _, rfl, by decide⟩
  | jump => exact ⟨_, _, rfl, by decide⟩
  | back => exact ⟨_, _, rfl, by decide⟩

end Marker

namespace Guarded

variable {text guard : List Char}

theorem split?_chars (htext : '#' ∉ text) (hguard : '\n' ∉ guard) :
    split? (chars ⟨text, guard⟩) = some ⟨text, guard⟩ := by
  have hpos : ∀ c ∈ text, decide (c ≠ '#') = true := by
    intro c hc
    exact decide_eq_true fun heq => htext (heq ▸ hc)
  have hdrop : (chars ⟨text, guard⟩).dropWhile (· ≠ '#') = '#' :: (guard ++ ['#']) := by
    rw [chars, List.dropWhile_append_of_pos hpos]
    rfl
  have htake : (chars ⟨text, guard⟩).takeWhile (· ≠ '#') = text := by
    rw [chars, List.takeWhile_append_of_pos hpos]
    exact List.append_nil _
  unfold split?
  rw [hdrop, htake]
  simp [hguard]

theorem clean_chars (htext : Text.Clean text) (hguard : Text.Clean guard) :
    Text.Clean (chars ⟨text, guard⟩) := by
  refine .of_ends (fun c hc => ?_) (fun c hc => ?_) ?_
  · cases text with
    | nil => exact Option.some.inj hc ▸ by decide
    | cons d rest => exact Option.some.inj hc ▸ htext.isBlank_head
  · rw [chars, ← List.cons_append, ← List.append_assoc, List.getLast?_concat] at hc
    exact Option.some.inj hc ▸ by decide
  · have hone := htext.newline_notMem
    have htwo := hguard.newline_notMem
    simp [chars, hone, htwo]

end Guarded

namespace Line

variable {number tabs : Nat} {c : Char} {rest : List Char}

theorem read?_of_indented {text lead : List Char} (h : Text.Indented text lead rest)
    (number : Nat) : read? number text =
      some ⟨number, lead, (Marker.split rest).1, (Marker.split rest).2⟩ := by
  obtain ⟨hlead, hstart⟩ := h.eq
  obtain ⟨c, hhead, -⟩ := h.rest_head
  obtain ⟨tail, rfl⟩ := List.head?_eq_some_iff.mp hhead
  unfold read?
  rw [hstart, hlead]

theorem read?_indented (h : Text.isBlank c = false) :
    read? number (indented tabs (c :: rest)) =
      some ⟨number, List.replicate tabs '\t', (Marker.split (c :: rest)).1,
        (Marker.split (c :: rest)).2⟩ := by
  have htab : ∀ d ∈ List.replicate tabs '\t', Text.isBlank d = true := by
    intro d hd
    rw [List.eq_of_mem_replicate hd]
    decide
  exact read?_of_indented ⟨rfl, htab, c, rfl, h⟩ number

private theorem read?_sign {marker : Marker} (h : marker ≠ .text) (number tabs : Nat)
    (rest : List Char) : read? number (indented tabs (marker.sign ++ rest)) =
      some ⟨number, List.replicate tabs '\t', marker, rest⟩ := by
  obtain ⟨c, more, hsign, hc⟩ := Marker.exists_sign_eq_cons h
  have hsplit := Marker.split_sign_append h rest
  rw [hsign, List.cons_append] at hsplit ⊢
  rw [read?_indented hc, hsplit]

theorem depth_replicate (number tabs : Nat) (marker : Marker) (rest : List Char) :
    (⟨number, List.replicate tabs '\t', marker, rest⟩ : Line).depth = tabs + 1 := by
  rw [depth, List.count_replicate_self, Nat.add_comm]

/-- A written line adds what it is meant to add, whatever was read before. -/
def Writes (options : Options) (judge : Query → Option Rejection)
    (taken : String → Option Nat) (number tabs : Nat) (text : List Char) (growth : Growth) :
    Prop :=
  ∃ line asked, read? number (indented tabs text) = some line ∧ line.number = number ∧
    line.depth = tabs + 1 ∧ line.effect options judge taken = { asked, growth }

section Writes

variable {options : Options} {judge : Query → Option Rejection} {taken : String → Option Nat}

theorem writes_sign (marker : Marker) (h : marker ≠ .text) (rest : List Char)
    (asked : List Query) {growth : Growth}
    (heffect : (⟨number, List.replicate tabs '\t', marker, rest⟩ : Line).effect options judge
      taken = { asked, growth }) :
    Writes options judge taken number tabs (marker.sign ++ rest) growth :=
  ⟨_, asked, read?_sign h number tabs rest, rfl, depth_replicate .., heffect⟩

theorem exists_writes_leaf {leaf : Leaf} (h : leaf.WellFormed) (number tabs : Nat) :
    ∃ column, Writes options judge taken number tabs leaf.written (.leaf column leaf) := by
  cases leaf with
  | back =>
    exact ⟨_, writes_sign .back (by decide) [] [] rfl⟩
  | comment text =>
    by_cases hempty : text = ""
    · subst hempty
      exact ⟨_, writes_sign .comment (by decide) [' '] [] rfl⟩
    · have hne := Text.toList_ne_nil hempty
      obtain ⟨start, hstart⟩ := Text.ofSuffix_blank_cons h hne
        (⟨number, List.replicate tabs '\t', .comment, ' ' :: text.toList⟩ : Line).restColumn
      refine ⟨start, writes_sign .comment (by decide) _ [] ?_⟩
      simp [effect, excerpt?, hstart]
  | jump key target =>
    obtain ⟨hclean, hne, rfl⟩ := h
    have hne := Text.toList_ne_nil hne
    obtain ⟨start, hstart⟩ := Text.ofSuffix_blank_cons hclean hne
      (⟨number, List.replicate tabs '\t', .jump, ' ' :: key.toList⟩ : Line).restColumn
    refine ⟨start, writes_sign .jump (by decide) _ [] ?_⟩
    simp [effect, excerpt?, hstart]
  | line text =>
    obtain ⟨hclean, hne, hsign⟩ := h
    have hne := Text.toList_ne_nil hne
    obtain ⟨start, hstart⟩ := Text.ofSuffix_of_clean hclean hne
      (⟨number, List.replicate tabs '\t', .text, text.toList⟩ : Line).restColumn
    have hread : read? number (indented tabs text.toList) =
        some ⟨number, List.replicate tabs '\t', .text, text.toList⟩ := by
      have hsplit := Marker.split_of_not_sign hsign
      cases hchars : text.toList with
      | nil => contradiction
      | cons c rest =>
        rw [hchars] at hclean hsplit
        rw [read?_indented hclean.isBlank_head, hsplit]
    refine ⟨start, _, [], hread, rfl, depth_replicate .., ?_⟩
    simp [effect, excerpt?, hstart]

theorem exists_writes_command {piece : List Char} (h : Text.Clean piece) (hne : piece ≠ [])
    (number tabs : Nat) : ∃ column, Writes options judge taken number tabs
      (Marker.command.sign ++ ' ' :: piece) (.command column (String.ofList piece)) := by
  obtain ⟨start, hstart⟩ := Text.ofSuffix_blank_cons h hne
    (⟨number, List.replicate tabs '\t', .command, ' ' :: piece⟩ : Line).restColumn
  refine ⟨start, writes_sign .command (by decide) _ [] ?_⟩
  simp [effect, excerpt?, hstart]

theorem exists_writes_scope {key : String} (h : Text.Clean key.toList) (hne : key ≠ "")
    (htaken : taken key = none) (number : Nat) : ∃ column, Writes options judge taken number 0
      (Marker.scope.sign ++ ' ' :: key.toList) (.scope column key true) := by
  have hne := Text.toList_ne_nil hne
  obtain ⟨start, hstart⟩ := Text.ofSuffix_blank_cons h hne
    (⟨number, List.replicate 0 '\t', .scope, ' ' :: key.toList⟩ : Line).restColumn
  refine ⟨start, writes_sign .scope (by decide) _ [] ?_⟩
  have hdepth := depth_replicate number 0 .scope (' ' :: key.toList)
  have hexcerpt : (⟨number, List.replicate 0 '\t', .scope, ' ' :: key.toList⟩ : Line).excerpt? =
      some ⟨start, key⟩ := by
    rw [excerpt?, hstart, String.ofList_toList]
  have hmarker : (⟨number, List.replicate 0 '\t', .scope, ' ' :: key.toList⟩ : Line).marker =
      .scope := rfl
  generalize (⟨number, List.replicate 0 '\t', .scope, ' ' :: key.toList⟩ : Line) = line at *
  simp [effect, scopeEffect, misaligned, hmarker, hdepth, hexcerpt, htaken]

/-- A choice without a guard is not taken for a guarded one. -/
theorem exists_writes_choice {text : String} (h : (Block.choice text none).WellFormed)
    (number tabs : Nat) : ∃ column, Writes options judge taken number tabs
      (Marker.choice.sign ++ ' ' :: text.toList) (.choice column text none) := by
  obtain ⟨hclean, hne, hplain⟩ := h
  have hne := Text.toList_ne_nil hne
  obtain ⟨start, hstart⟩ := Text.ofSuffix_blank_cons hclean hne
    (⟨number, List.replicate tabs '\t', .choice, ' ' :: text.toList⟩ : Line).restColumn
  refine ⟨start, writes_sign .choice (by decide) _ [] ?_⟩
  have hsplit : Guarded.split? text.toList = none := by
    cases hparts : Guarded.split? text.toList with
    | none => rfl
    | some parts => exact absurd (Guarded.chars_of_split? hparts).symm (hplain _ _)
  simp [effect, choiceEffect, excerpt?, hstart, hsplit]

theorem exists_writes_guarded {text guard : String}
    (h : (Block.choice text (some guard)).WellFormed)
    (hjudge : judge (.condition guard) = none) (number tabs : Nat) :
    ∃ column, Writes options judge taken number tabs
      (Marker.choice.sign ++ ' ' :: Guarded.chars ⟨text.toList, guard.toList⟩)
      (.choice column text (some guard)) := by
  obtain ⟨htext, hplain, hguard, hne⟩ := h
  have hclean : Text.Clean (Guarded.chars ⟨text.toList, guard.toList⟩) :=
    Guarded.clean_chars htext hguard
  obtain ⟨start, hstart⟩ := Text.ofSuffix_blank_cons hclean (by simp [Guarded.chars])
    (⟨number, List.replicate tabs '\t', .choice,
      ' ' :: Guarded.chars ⟨text.toList, guard.toList⟩⟩ : Line).restColumn
  have hsplit := Guarded.split?_chars hplain hguard.newline_notMem
  have hlabel : (⟨text.toList, guard.toList⟩ : Guarded).label = text := by
    rw [Guarded.label, htext.trim_eq, String.ofList_toList]
  have hcondition : (⟨text.toList, guard.toList⟩ : Guarded).condition = guard := by
    rw [Guarded.condition, hguard.trim_eq, String.ofList_toList]
  have heffect : (⟨number, List.replicate tabs '\t', .choice,
      ' ' :: Guarded.chars ⟨text.toList, guard.toList⟩⟩ : Line).effect options judge taken =
        { asked := [.condition guard], growth := .choice start text (some guard) } := by
    simp [effect, choiceEffect, excerpt?, hstart, hsplit, guardedEffect, hcondition, hlabel, hne,
      hjudge]
  exact ⟨start, writes_sign .choice (by decide) _ _ heffect⟩

end Writes

end Line

/-! Every written line stands by itself. -/

theorem Marker.single_sign (marker : Marker) : Text.Single marker.sign := by
  cases marker <;> exact ⟨by decide, by decide⟩

theorem Marker.single_written (marker : Marker) {text : List Char} (h : Text.Clean text) :
    Text.Single (marker.sign ++ ' ' :: text) := by
  have hblank : Text.Single [' '] := ⟨by decide, by decide⟩
  exact marker.single_sign.append (hblank.append h.single)

private theorem single_indented {line : List Char} (h : Text.Single line) (tabs : Nat) :
    Text.Single (indented tabs line) := by
  refine .append ⟨fun hin => ?_, fun hlast => ?_⟩ h
  · exact absurd (List.eq_of_mem_replicate hin) (by decide)
  · exact absurd (List.eq_of_mem_replicate (List.mem_of_getLast? hlast)) (by decide)

private theorem Leaf.single_written {leaf : Leaf} (h : leaf.WellFormed) :
    Text.Single leaf.written := by
  cases leaf with
  | line => exact h.1.single
  | comment => exact Marker.single_written .comment h
  | jump => exact Marker.single_written .jump h.1
  | back => exact Marker.single_sign .back

theorem Block.written_command {text : String} {pieces : List (List Char)} (hne : pieces ≠ [])
    (htext : text.toList = List.intercalate ['\n'] pieces)
    (hpieces : ∀ piece ∈ pieces, Text.Clean piece ∧ piece ≠ []) :
    (Block.command text).written = pieces.map fun piece => Marker.command.sign ++ ' ' :: piece := by
  rw [written, htext, Text.splitLines_intercalate hne hpieces]

private theorem Block.single_written {block : Block} (h : block.WellFormed) :
    ∀ line ∈ block.written, Text.Single line := by
  cases block with
  | scope => exact h.elim
  | command text =>
    obtain ⟨pieces, hne, htext, hpieces⟩ := h
    rw [written_command hne htext hpieces]
    intro line hline
    obtain ⟨piece, hpiece, rfl⟩ := List.mem_map.mp hline
    exact Marker.single_written .command (hpieces piece hpiece).1
  | choice text condition =>
    intro line hline
    cases condition with
    | none =>
      obtain rfl := List.mem_singleton.mp hline
      exact Marker.single_written .choice h.1
    | some guard =>
      obtain rfl := List.mem_singleton.mp hline
      exact Marker.single_written .choice (Guarded.clean_chars h.1 h.2.2.1)

private theorem Outline.single_written {outline : Outline} (h : outline.WellFormed) (tabs : Nat) :
    ∀ line ∈ outline.written tabs, Text.Single line := by
  induction outline generalizing tabs with
  | done => exact nofun
  | leaf l rest ih =>
    intro line hline
    rcases List.mem_cons.mp hline with rfl | hrest
    · exact single_indented (Leaf.single_written h.1) tabs
    · exact ih h.2 tabs line hrest
  | block b body rest ihbody ihrest =>
    intro line hline
    rcases List.mem_append.mp hline with hblock | hmore
    · obtain ⟨piece, hpiece, rfl⟩ := List.mem_map.mp hblock
      exact single_indented (Block.single_written h.1 piece hpiece) tabs
    · rcases List.mem_append.mp hmore with hbody | hrest
      · exact ihbody h.2.1 (tabs + 1) line hbody
      · exact ihrest h.2.2.1 tabs line hrest

theorem Document.lines_print {document : Document} (h : document.WellFormed) :
    Text.lines document.print = document.written.map String.ofList := by
  have hsingle : ∀ line ∈ document.written, Text.Single line := by
    intro line hline
    rcases List.mem_append.mp hline with hopening | hsections
    · exact Outline.single_written h.opening 0 line hopening
    · obtain ⟨scope, hscope, hin⟩ := List.mem_flatMap.mp hsections
      obtain ⟨hkey, _, hbody⟩ := h.sections scope hscope
      rcases List.mem_append.mp hin with hfirst | hrest
      · obtain rfl := List.mem_singleton.mp hfirst
        exact Marker.single_written .scope hkey
      · exact Outline.single_written hbody 0 line hrest
  rw [Text.lines, print, String.toList_ofList, Text.splitLines_flatMap hsingle]

end Dialogue
