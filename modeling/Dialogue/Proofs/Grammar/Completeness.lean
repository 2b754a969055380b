import Dialogue.Proofs.Grammar.Printing
import Dialogue.Proofs.Parse.Reading

/-! Every document is read back. Line by line, what is written of a document takes a reading
from one shape to the next, until the shape is that of the document. -/
namespace Dialogue

open Sketch (Shut Grown floor keys)

namespace Reading

/-- A reading that has come to a shape without complaint, and goes on with a line of that many
tabs. -/
structure At (reading : Reading) (nodes : List (Nat × Content)) (tabs : Nat) : Prop where
  shape : Sketch.shape reading.entries = nodes
  room : tabs < reading.room
  diagnostics : reading.diagnostics = #[]

variable {options : Options} {reading : Reading} {nodes more : List (Nat × Content)}
  {tabs deep : Nat} {lines : List (List Char)} {text : List Char} {growth : Growth}

theorem At.of_le (h : reading.At nodes deep) (hle : tabs ≤ deep) : reading.At nodes tabs :=
  ⟨h.shape, Nat.lt_of_le_of_lt hle h.room, h.diagnostics⟩

/-- Lines that take a reading from one shape to another, with room for deeper lines. -/
def Takes (options : Options) (lines : List (List Char)) (nodes : List (Nat × Content))
    (tabs : Nat) (more : List (Nat × Content)) (deep : Nat) : Prop :=
  ∀ reading : Reading, reading.At nodes tabs →
    ∃ next, (lines.map String.ofList).foldlM (feed options .lenient) reading = .ok next ∧
      next.At more deep

namespace Takes

theorem nil (hle : deep ≤ tabs) : Takes options [] nodes tabs nodes deep :=
  fun reading hat => ⟨reading, rfl, hat.of_le hle⟩

theorem append {others : List (List Char)} {last : List (Nat × Content)} {middle : Nat}
    (h : Takes options lines nodes tabs more middle)
    (hothers : Takes options others more middle last deep) :
    Takes options (lines ++ others) nodes tabs last deep := by
  intro reading hat
  obtain ⟨next, hnext, hmore⟩ := h reading hat
  obtain ⟨final, hfinal, hlast⟩ := hothers next hmore
  refine ⟨final, ?_, hlast⟩
  rw [List.map_append, List.foldlM_append, hnext]
  exact hfinal

theorem of_le {start less : Nat} (h : Takes options lines nodes tabs more deep)
    (hstart : tabs ≤ start) (hless : less ≤ deep) :
    Takes options lines nodes start more less := by
  intro reading hat
  obtain ⟨next, hnext, hmore⟩ := h reading (hat.of_le hstart)
  exact ⟨next, hnext, hmore.of_le hless⟩

end Takes

theorem At.feed (h : reading.At nodes tabs)
    (hwrites : Line.Writes options (reading.judge .lenient) reading.taken reading.lineCount tabs
      text growth)
    (hgrown : ∀ last, Grown (floor nodes + (tabs + 1)) nodes growth last → last = more)
    (hdeep : deep < growth.room (tabs + 1)) :
    ∃ next, reading.feed options .lenient (String.ofList (indented tabs text)) = .ok next ∧
      next.At more deep := by
  obtain ⟨line, asked, hread, hnumber, hdepth, heffect⟩ := hwrites
  have hfits : ¬ reading.room < line.depth := by
    have hroom := h.room
    omega
  have hfed : reading.feed options .lenient (String.ofList (indented tabs text)) =
      .ok (({ reading with lineCount := reading.lineCount + 1 } : Reading).absorb line
        { asked, growth }) := by
    rw [Reading.feed, String.toList_ofList, hread]
    simp only [place, if_neg hfits]
    rw [show Reading.effect options .lenient
      { reading with lineCount := reading.lineCount + 1 } line = _ from heffect]
  refine ⟨_, hfed, ?_, ?_, ?_⟩
  · apply hgrown
    rw [← h.shape, ← Sketch.ground_eq_floor, ← hdepth]
    exact Sketch.grown_grow ..
  · rw [absorb, hdepth]
    exact hdeep
  · simp [absorb, h.diagnostics]

section Takes

variable (options)

theorem takes_line
    (h : ∀ reading : Reading, reading.At nodes tabs → ∃ growth,
      Line.Writes options (reading.judge .lenient) reading.taken reading.lineCount tabs text
        growth ∧
      (∀ last, Grown (floor nodes + (tabs + 1)) nodes growth last → last = more) ∧
      deep < growth.room (tabs + 1)) :
    Takes options [indented tabs text] nodes tabs more deep := by
  intro reading hat
  obtain ⟨growth, hwrites, hgrown, hdeep⟩ := h reading hat
  obtain ⟨next, hnext, hmore⟩ := hat.feed hwrites hgrown hdeep
  refine ⟨next, ?_, hmore⟩
  rw [List.map_singleton, List.foldlM_cons, hnext]
  rfl

private theorem takes_leaf {leaf : Leaf} {level : Nat} (h : leaf.WellFormed)
    (hlevel : level = floor nodes + (tabs + 1)) :
    Takes options [indented tabs leaf.written] nodes tabs
      (nodes ++ [(level, .leaf leaf)]) tabs := by
  refine takes_line options fun reading _ => ?_
  obtain ⟨column, hwrites⟩ := Line.exists_writes_leaf h reading.lineCount tabs
  refine ⟨_, hwrites, fun last hgrown => ?_, Nat.lt_succ_self tabs⟩
  have hunaimed : leaf.unaimed = leaf := by
    cases leaf with
    | jump key target => rw [h.2.2, Leaf.unaimed]
    | line => rfl
    | comment => rfl
    | back => rfl
  cases hgrown
  rw [hunaimed, hlevel]

private theorem takes_choice {text : String} {condition : Option String} {level : Nat}
    (h : (Block.choice text condition).WellFormed) (hlevel : level = floor nodes + (tabs + 1)) :
    Takes options ((Block.choice text condition).written.map (indented tabs)) nodes tabs
      (nodes ++ [(level, .block (.choice text condition) [])]) (tabs + 1) := by
  have hgrown (column : Nat) (last : List (Nat × Content))
      (hlast : Grown (floor nodes + (tabs + 1)) nodes (.choice column text condition) last) :
      last = nodes ++ [(level, .block (.choice text condition) [])] := by
    cases hlast
    rw [hlevel]
  cases condition with
  | none =>
    refine takes_line options fun reading _ => ?_
    obtain ⟨column, hwrites⟩ := Line.exists_writes_choice h reading.lineCount tabs
    exact ⟨_, hwrites, hgrown column, Nat.lt_succ_self _⟩
  | some guard =>
    refine takes_line options fun reading _ => ?_
    have hjudge : reading.judge .lenient (.condition guard) = none := rfl
    obtain ⟨column, hwrites⟩ := Line.exists_writes_guarded h hjudge reading.lineCount tabs
    exact ⟨_, hwrites, hgrown column, Nat.lt_succ_self _⟩

theorem takes_command {piece : List Char} {level : Nat} (h : Text.Clean piece) (hne : piece ≠ [])
    (hlevel : level = floor nodes + (tabs + 1)) (hshut : Shut nodes level) :
    Takes options [indented tabs (Marker.command.sign ++ ' ' :: piece)] nodes tabs
      (nodes ++ [(level, .block (.command (String.ofList piece)) [])]) (tabs + 1) := by
  refine takes_line options fun reading _ => ?_
  obtain ⟨column, hwrites⟩ := Line.exists_writes_command h hne reading.lineCount tabs
  refine ⟨_, hwrites, fun last hgrown => ?_, Nat.lt_succ_self _⟩
  rw [← hlevel] at hgrown
  cases hgrown with
  | command => rfl
  | more _ _ hnodes =>
    have hlast := congrArg List.getLast? hnodes
    rw [List.getLast?_concat] at hlast
    exact absurd hlast (hshut _ _)

theorem takes_more {piece : List Char} {level : Nat} (first : String) (h : Text.Clean piece)
    (hne : piece ≠ []) (hlevel : level = floor nodes + (tabs + 1)) :
    Takes options [indented tabs (Marker.command.sign ++ ' ' :: piece)]
      (nodes ++ [(level, .block (.command first) [])]) tabs
      (nodes ++ [(level, .block (.command (first ++ "\n" ++ String.ofList piece)) [])])
      (tabs + 1) := by
  refine takes_line options fun reading _ => ?_
  obtain ⟨column, hwrites⟩ := Line.exists_writes_command h hne reading.lineCount tabs
  refine ⟨_, hwrites, fun last hgrown => ?_, Nat.lt_succ_self _⟩
  rw [Sketch.floor_append nodes rfl, ← hlevel] at hgrown
  cases hgrown with
  | command _ _ hshut => exact absurd List.getLast?_concat (hshut first [])
  | more _ _ hnodes =>
    obtain ⟨rfl, hlast⟩ := List.append_inj' hnodes rfl
    injection hlast with hlast
    injection hlast with _ hlast
    injection hlast with hblock hchildren
    injection hblock with hfirst
    rw [hfirst, hchildren]

private theorem takes_pieces {pieces : List (List Char)} {level : Nat}
    (h : ∀ piece ∈ pieces, Text.Clean piece ∧ piece ≠ [])
    (hlevel : level = floor nodes + (tabs + 1)) {first text : String}
    (htext : text.toList = first.toList ++ pieces.flatMap ('\n' :: ·)) :
    Takes options
      (pieces.map fun piece => indented tabs (Marker.command.sign ++ ' ' :: piece))
      (nodes ++ [(level, .block (.command first) [])]) (tabs + 1)
      (nodes ++ [(level, .block (.command text) [])]) (tabs + 1) := by
  induction pieces generalizing first with
  | nil =>
    rw [List.flatMap_nil, List.append_nil, String.toList_inj] at htext
    rw [htext]
    exact .nil (Nat.le_refl _)
  | cons piece rest ih =>
    obtain ⟨hclean, hne⟩ := h piece List.mem_cons_self
    have hnext : text.toList = (first ++ "\n" ++ String.ofList piece).toList ++
        rest.flatMap ('\n' :: ·) := by
      rw [htext]
      simp
    have hrest := ih (fun other hother => h other (List.mem_cons_of_mem piece hother)) hnext
    have hmore  := takes_more options first hclean hne hlevel
    exact (hmore.of_le (Nat.le_succ tabs) (Nat.le_refl _)).append hrest

theorem takes_block {block : Block} {level : Nat} (h : block.WellFormed)
    (hlevel : level = floor nodes + (tabs + 1))
    (hshut : block.isCommand = true → Shut nodes level) :
    Takes options (block.written.map (indented tabs)) nodes tabs
      (nodes ++ [(level, .block block [])]) (tabs + 1) := by
  cases block with
  | scope => exact h.elim
  | choice text condition => exact takes_choice options h hlevel
  | command text =>
    obtain ⟨pieces, hne, htext, hpieces⟩ := h
    rw [Block.written_command hne htext hpieces, List.map_map]
    cases pieces with
    | nil => contradiction
    | cons piece rest =>
      obtain ⟨hclean, hpiece⟩ := hpieces piece List.mem_cons_self
      have hrest : text.toList = (String.ofList piece).toList ++ rest.flatMap ('\n' :: ·) := by
        rw [htext, Text.intercalate_cons, String.toList_ofList]
      have hmore := takes_pieces options
        (fun other hother => hpieces other (List.mem_cons_of_mem piece hother)) hlevel hrest
      exact (takes_command options hclean hpiece hlevel (hshut rfl)).append hmore

theorem shut_append {level : Nat} {node : Nat × Content} (nodes : List (Nat × Content))
    (h : ∀ text children, node ≠ (level, .block (.command text) children)) :
    Shut (nodes ++ [node]) level := by
  intro text children hlast
  rw [List.getLast?_concat] at hlast
  exact h text children (Option.some.inj hlast)

theorem shut_append_shape {level : Nat} {block : Block} {body : Outline}
    (nodes : List (Nat × Content)) (h : block.isCommand = true → body ≠ .done) :
    Shut (nodes ++ (level, .block block []) :: body.shape (level + 1)) level := by
  intro text children hlast
  rw [List.getLast?_append, Option.or_eq_some_iff] at hlast
  rcases hlast with hbehind | ⟨hnone, _⟩
  · rw [List.getLast?_cons, Option.some.injEq] at hbehind
    cases hbody : (body.shape (level + 1)).getLast? with
    | none =>
      rw [hbody, Option.getD_none] at hbehind
      injection hbehind with _ hcontent
      injection hcontent with hblock
      refine h (by rw [hblock]; rfl) ?_
      rw [List.getLast?_eq_none_iff] at hbody
      cases body with
      | done => rfl
      | leaf => contradiction
      | block => contradiction
    | some last =>
      rw [hbody, Option.getD_some] at hbehind
      have hle := Outline.le_of_mem_shape (List.mem_of_getLast? hbody)
      rw [hbehind] at hle
      exact Nat.not_succ_le_self level hle
  · simp at hnone

theorem takes_outline {outline : Outline} {level : Nat} (h : outline.WellFormed)
    (hlevel : level = floor nodes + (tabs + 1))
    (hshut : outline.startsWithCommand = true → Shut nodes level) :
    Takes options (outline.written tabs) nodes tabs (nodes ++ outline.shape level) tabs := by
  induction outline generalizing nodes tabs level with
  | done =>
    rw [Outline.shape, List.append_nil]
    exact .nil (Nat.le_refl tabs)
  | leaf l rest ih =>
    obtain ⟨hleaf, hrest⟩ := h
    have hfloor : floor (nodes ++ [(level, .leaf l)]) = floor nodes := Sketch.floor_append nodes rfl
    have hshut : Shut (nodes ++ [(level, .leaf l)]) level := shut_append nodes (by simp)
    have htakes := ih hrest (hlevel.trans (by rw [hfloor])) fun _ => hshut
    rw [List.append_assoc, List.singleton_append] at htakes
    exact (takes_leaf options hleaf hlevel).append htakes
  | block b body rest ihbody ihrest =>
    obtain ⟨hblock, hbody, hrest, hapart⟩ := h
    have hkey : keys [(level, Content.block b [])] = [] := by
      cases b with
      | scope => exact hblock.elim
      | command => rfl
      | choice => rfl
    have hopened : level + 1 = floor (nodes ++ [(level, .block b [])]) + (tabs + 1 + 1) := by
      rw [Sketch.floor_append nodes hkey, hlevel]
      omega
    have hopen : Shut (nodes ++ [(level, .block b [])]) (level + 1) := shut_append nodes (by simp)
    have hfirst := takes_block options hblock hlevel hshut
    have hinner := ihbody hbody hopened fun _ => hopen
    rw [List.append_assoc, List.singleton_append] at hinner
    have hkeys : keys ((level, .block b []) :: body.shape (level + 1)) = [] := by
      rw [← List.singleton_append, Sketch.keys_append, hkey, Outline.keys_shape hbody]
      rfl
    have hclosed : level =
        floor (nodes ++ (level, .block b []) :: body.shape (level + 1)) + (tabs + 1) :=
      hlevel.trans (by rw [Sketch.floor_append nodes hkeys])
    have hbehind := ihrest hrest hclosed fun hstarts =>
      shut_append_shape nodes fun hcommand hdone => by simp [hapart hcommand hdone] at hstarts
    rw [List.append_assoc, List.cons_append] at hbehind
    have hwhole := hinner.append (hbehind.of_le (Nat.le_succ tabs) (Nat.le_refl tabs))
    exact hfirst.append hwhole

theorem takes_scope {key : String} (h : Text.Clean key.toList) (hne : key ≠ "")
    (hfree : key ∉ keys nodes) :
    Takes options (Block.scope (some key)).written nodes 0
      (nodes ++ [(1, .block (.scope (some key)) [])]) 0 := by
  refine takes_line options fun reading hat => ?_
  have htaken : reading.taken key = none := by
    rw [taken, Option.map_eq_none_iff, Sketch.lookup_names_eq_none_iff, hat.shape]
    exact hfree
  obtain ⟨column, hwrites⟩ := Line.exists_writes_scope h hne htaken reading.lineCount
  refine ⟨_, hwrites, fun last hgrown => ?_, Nat.one_pos⟩
  cases hgrown
  rfl

private theorem takes_sections {sections : List (String × Outline)}
    (h : ∀ scope ∈ sections, Text.Clean scope.1.toList ∧ scope.1 ≠ "" ∧ scope.2.WellFormed)
    (hnodup : (sections.map Prod.fst).Nodup)
    (hfree : ∀ key ∈ sections.map Prod.fst, key ∉ keys nodes) :
    Takes options (sections.flatMap fun scope =>
        (Block.scope (some scope.1)).written ++ scope.2.written 0)
      nodes 0 (nodes ++ (Outline.ofSections sections).shape 1) 0 := by
  induction sections generalizing nodes with
  | nil =>
    rw [Outline.ofSections, Outline.shape, List.append_nil]
    exact .nil (Nat.le_refl 0)
  | cons scope rest ih =>
    obtain ⟨key, body⟩ := scope
    obtain ⟨hclean, hne, hbody⟩ := h _ List.mem_cons_self
    obtain ⟨hnew, hrest⟩ := List.nodup_cons.mp hnodup
    have hkeys : keys (nodes ++ [(1, .block (.scope (some key)) [])]) = keys nodes ++ [key] :=
      Sketch.keys_append ..
    have hfirst := takes_scope options hclean hne (hfree key List.mem_cons_self)
    have hlevel : 2 = floor (nodes ++ [(1, .block (.scope (some key)) [])]) + (0 + 1) := by
      rw [floor, hkeys]
      simp
    have hinner := takes_outline options hbody hlevel fun _ => shut_append nodes (by simp)
    rw [List.append_assoc, List.singleton_append] at hinner
    have hnext : ∀ other ∈ rest.map Prod.fst,
        other ∉ keys (nodes ++ (1, .block (.scope (some key)) []) :: body.shape 2) := by
      intro other hother hin
      rw [Sketch.keys_append, Sketch.keys_cons, Outline.keys_shape hbody, List.append_nil] at hin
      rcases List.mem_append.mp hin with hold | hsame
      · exact hfree other (List.mem_cons_of_mem _ hother) hold
      · exact hnew (List.mem_singleton.mp hsame ▸ hother)
    have hbehind := ih (fun other hother => h other (List.mem_cons_of_mem _ hother)) hrest hnext
    rw [List.append_assoc, List.cons_append] at hbehind
    rw [List.flatMap_cons, List.append_assoc]
    exact hfirst.append (hinner.append hbehind)

/-- What is written of a document is read without complaint. -/
theorem exists_read_of_document {document : Document} (h : document.WellFormed) :
    ∃ reading, read options .lenient (Text.lines document.print) = .ok reading ∧
      Sketch.shape reading.entries = document.shape ∧ reading.diagnostics = #[] := by
  have hroot : ({} : Reading).At [(0, .block (.scope none) [])] 0 := ⟨rfl, Nat.one_pos, rfl⟩
  have hlevel : 1 = floor [(0, .block (.scope none) [])] + (0 + 1) := rfl
  have hshut : Shut [(0, .block (.scope none) [])] 1 := shut_append [] (by simp)
  have hopening := takes_outline options h.opening hlevel fun _ => hshut
  have hfree : ∀ key ∈ document.names,
      key ∉ keys ([(0, .block (.scope none) [])] ++ document.opening.shape 1) := by
    intro key _ hin
    rw [Sketch.keys_append, Outline.keys_shape h.opening] at hin
    contradiction
  have hsections := takes_sections options h.sections h.nodup hfree
  obtain ⟨reading, hread, hat⟩ := hopening.append hsections {} hroot
  refine ⟨reading, ?_, ?_, hat.diagnostics⟩
  · rw [read, Document.lines_print h]
    exact hread
  · rw [hat.shape, Document.shape, Document.outline, Outline.shape_append]
    rfl

end Takes

end Reading
end Dialogue
