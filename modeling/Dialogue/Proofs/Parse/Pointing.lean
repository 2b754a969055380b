import Dialogue.Proofs.Line.Places
import Dialogue.Proofs.Parse.Accounting
import Dialogue.Proofs.Parse.Transcript

/-! Positions. The place that a node or a diagnostic gives is a place in the lines of the script,
and what it is about stands there. Columns count characters. -/
namespace Dialogue

open Text (isBlank StandsAt Excerpt)

/-- What stands where a node starts. A command starts with the text of its first line, and what
has no text starts at its marker. -/
inductive Line.Shows (line : Line) : Content → List Char → Prop
  | scope (key : String) (children : List NodeId) :
      Shows line (.block (.scope (some key)) children) key.toList
  | command {text : String} {excerpt : Excerpt} (children : List NodeId)
      (hmarker : line.marker = .command) (hexcerpt : line.excerpt? = some excerpt)
      (htext : text = excerpt.text ∨ ∃ more, text = excerpt.text ++ "\n" ++ more) :
      Shows line (.block (.command text) children) excerpt.text.toList
  | choice (text : String) (condition : Option String) (children : List NodeId) :
      Shows line (.block (.choice text condition) children) text.toList
  | text (text : String) : Shows line (.leaf (.line text)) text.toList
  | comment {text : String} (hne : text ≠ "") : Shows line (.leaf (.comment text)) text.toList
  | emptyComment : Shows line (.leaf (.comment "")) Marker.comment.sign
  | jump (key : String) (target : Option NodeId) :
      Shows line (.leaf (.jump key target)) key.toList
  | back : Shows line (.leaf .back) Marker.back.sign

namespace Line

variable {line : Line} {content : Content} {shown : List Char}

theorem Shows.of_bare (h : line.Shows content.bare shown) : line.Shows content shown := by
  cases content with
  | block b children =>
    cases b with
    | scope key => cases h with | scope key => exact .scope key children
    | command text =>
      cases h with
      | command _ hmarker hexcerpt htext => exact .command children hmarker hexcerpt htext
    | choice text condition => cases h with | choice => exact .choice text condition children
  | leaf l =>
    cases l with
    | jump key target => cases h with | jump => exact .jump key target
    | line | comment | back => exact h

theorem Shows.more {first : String} (h : line.Shows (.block (.command first) []) shown)
    (text : String) : line.Shows (.block (.command (first ++ "\n" ++ text)) []) shown := by
  cases h with
  | command _ hmarker hexcerpt htext =>
    refine .command [] hmarker hexcerpt (.inr ?_)
    rcases htext with rfl | ⟨more, rfl⟩
    · exact ⟨text, rfl⟩
    · exact ⟨more ++ "\n" ++ text, by simp only [String.append_assoc]⟩

def Displays (line : Line) (text : List Char) (column : Nat) (content : Content) : Prop :=
  column < text.length ∧ ∃ shown, line.Shows content shown ∧ StandsAt text column shown

section Say

variable {number : Nat} {text : List Char} {excerpt : Excerpt}

private theorem displays_excerpt (h : read? number text = some line)
    (hexcerpt : line.excerpt? = some excerpt) (hshows : line.Shows content excerpt.text.toList) :
    line.Displays text excerpt.column content :=
  ⟨excerpt_column_lt h hexcerpt, _, hshows, standsAt_excerpt h hexcerpt⟩

private theorem displays_sign (h : read? number text = some line)
    (hshows : line.Shows content line.marker.sign) : line.Displays text line.column content :=
  ⟨column_lt h, _, hshows, standsAt_sign h⟩

private theorem displays_label {parts : Guarded} (h : read? number text = some line)
    (hexcerpt : line.excerpt? = some excerpt)
    (hparts : Guarded.split? excerpt.text.toList = some parts) (condition : Option String) :
    line.Displays text excerpt.column (.block (.choice parts.label condition) []) := by
  have hinitial := Guarded.label_isInitial hparts (isBlank_head_excerpt hexcerpt)
  refine ⟨excerpt_column_lt h hexcerpt, _, .choice .., ?_⟩
  exact (standsAt_excerpt h hexcerpt).of_isInitial hinitial

theorem Say.exists_displays {lines : List Line} {mark : Mark} (h : Say lines mark) :
    ∃ first rest, lines = first :: rest ∧ first.number = mark.line ∧
      ∀ text, read? first.number text = some first →
        first.Displays text mark.column mark.label := by
  induction h with
  | @text line excerpt hmarker hexcerpt =>
    exact ⟨line, [], rfl, rfl, fun text h => displays_excerpt h hexcerpt (.text _)⟩
  | @comment line excerpt hmarker hexcerpt =>
    refine ⟨line, [], rfl, rfl, fun text h => ?_⟩
    cases hrest : line.excerpt? with
    | none =>
      rw [hrest] at hexcerpt
      rw [← hexcerpt]
      exact displays_sign h (hmarker ▸ .emptyComment)
    | some found =>
      rw [hrest] at hexcerpt
      obtain rfl : found = excerpt := hexcerpt
      exact displays_excerpt h hrest (.comment (Text.text_ne_of_ofSuffix hrest))
  | @jump line key hmarker hkey =>
    exact ⟨line, [], rfl, rfl, fun text h => displays_excerpt h hkey (.jump ..)⟩
  | @back line hmarker =>
    exact ⟨line, [], rfl, rfl, fun text h => displays_sign h (hmarker ▸ .back)⟩
  | @scope line name hmarker hname =>
    exact ⟨line, [], rfl, rfl, fun text h => displays_excerpt h hname (.scope ..)⟩
  | @choice line excerpt hmarker hexcerpt =>
    exact ⟨line, [], rfl, rfl, fun text h => displays_excerpt h hexcerpt (.choice ..)⟩
  | @guarded line excerpt parts hmarker hexcerpt hparts =>
    exact ⟨line, [], rfl, rfl, fun text h => displays_label h hexcerpt hparts _⟩
  | @command line excerpt hmarker hexcerpt =>
    refine ⟨line, [], rfl, rfl, fun text h => ?_⟩
    exact displays_excerpt h hexcerpt (.command [] hmarker hexcerpt (.inl rfl))
  | more _ _ _ ih =>
    obtain ⟨first, rest, rfl, hnumber, hshows⟩ := ih
    refine ⟨first, rest ++ [_], rfl, hnumber, fun text h => ?_⟩
    obtain ⟨hlt, shown, hfirst, hstands⟩ := hshows text h
    exact ⟨hlt, shown, hfirst.more _, hstands⟩

end Say

/-- What a complaint about a line points at. -/
inductive Points (line : Line) (text : List Char) (judge : Query → Option Rejection) :
    Nat → Cause → Prop
  | tooDeep {column : Nat} (hblank : ∀ c ∈ text.take column, isBlank c = true)
      (hstart : ∃ c, text[column]? = some c ∧ isBlank c = false) :
      Points line text judge column .tooDeep
  | nothingAfter (column : Nat) (hint : String) : Points line text judge column (.nothingAfter hint)
  | duplicateScope {column : Nat} {key : String} (firstLine : Nat) (hmarker : line.marker = .scope)
      (hname : line.excerpt? = some ⟨column, key⟩) (hstands : StandsAt text column key.toList) :
      Points line text judge column (.duplicateScope key firstLine)
  | ignoredText {column : Nat} {extra : String} (hmarker : line.marker = .back)
      (hextra : line.excerpt? = some ⟨column, extra⟩)
      (hstands : StandsAt text column extra.toList) :
      Points line text judge column (.ignoredText extra)
  | rejectedCondition {column : Nat} {excerpt : Excerpt} {parts : Guarded} {rejection : Rejection}
      (hmarker : line.marker = .choice) (hexcerpt : line.excerpt? = some excerpt)
      (hparts : Guarded.split? excerpt.text.toList = some parts)
      (hjudge : judge (.condition parts.condition) = some rejection)
      (hstands : StandsAt text column parts.condition.toList)
      (hbehind : ∃ before blanks, text.take column = before ++ '#' :: blanks ∧ '#' ∉ before ∧
        ∀ c ∈ blanks, isBlank c = true) :
      Points line text judge column (.rejectedCondition rejection)
  | unknownScope {column : Nat} {key : String} (hmarker : line.marker = .jump)
      (hkey : line.excerpt?.map Excerpt.text = some key)
      (hbehind : ∃ blanks, text.take column = blanks ++ Marker.jump.sign ∧
        ∀ c ∈ blanks, isBlank c = true) :
      Points line text judge column (.unknownScope key)

structure Pinned (line : Line) (text : List Char) (judge : Query → Option Rejection)
    (diagnostic : Diagnostic) : Prop where
  line_eq : diagnostic.line = line.number
  column_lt : diagnostic.column < text.length
  points : line.Points text judge diagnostic.column diagnostic.cause

section Pinned

variable {number : Nat} {text : List Char} {excerpt : Excerpt} {parts : Guarded}
  {judge : Query → Option Rejection}

theorem pinned_tooDeep (h : read? number text = some line) :
    line.Pinned text judge (line.complaint line.column .tooDeep) := by
  refine ⟨rfl, column_lt h, .tooDeep ?_ (exists_getElem?_column h)⟩
  show ∀ c ∈ text.take line.column, isBlank c = true
  rw [take_column h]
  exact isBlank_of_mem_lead h

theorem pinned_bare (h : read? number text = some line) (hint : String) :
    line.Pinned text judge (line.complaint line.column (.nothingAfter hint)) :=
  ⟨rfl, column_lt h, .nothingAfter ..⟩

private theorem pinned_misaligned (h : read? number text = some line) :
    ∀ diagnostic ∈ line.misaligned, line.Pinned text judge diagnostic := by
  intro diagnostic hmem
  unfold misaligned at hmem
  split at hmem
  · contradiction
  · rw [List.mem_singleton.mp hmem]
    exact pinned_tooDeep h

theorem condition_column_lt (h : read? number text = some line)
    (hexcerpt : line.excerpt? = some excerpt)
    (hparts : Guarded.split? excerpt.text.toList = some parts) :
    excerpt.column + parts.offset < text.length := by
  have hlt := excerpt_column_lt h hexcerpt
  have hstands := (standsAt_excerpt h hexcerpt).length_le
  have hoffset := parts.offset_lt
  rw [Guarded.chars_of_split? hparts] at hoffset
  rw [List.length_drop] at hstands
  omega

private theorem pinned_condition (h : read? number text = some line)
    (hmarker : line.marker = .choice) (hexcerpt : line.excerpt? = some excerpt)
    (hparts : Guarded.split? excerpt.text.toList = some parts) {rejection : Rejection}
    (hjudge : judge (.condition parts.condition) = some rejection) :
    line.Pinned text judge
      (line.complaint (excerpt.column + parts.offset) (.rejectedCondition rejection)) := by
  obtain ⟨hcolumn, after, hchars⟩ := exists_condition_chars_eq hexcerpt hparts
  rw [chars_of_read? h] at hchars
  refine ⟨rfl, condition_column_lt h hexcerpt hparts,
    .rejectedCondition hmarker hexcerpt hparts hjudge ?_ ?_⟩
  · show StandsAt text (excerpt.column + parts.offset) _
    rw [hcolumn, hchars]
    exact Text.standsAt_append ..
  · refine ⟨line.front ++ parts.text, parts.guard.takeWhile isBlank, ?_, ?_, ?_⟩
    · show text.take (excerpt.column + parts.offset) = _
      rw [hcolumn, hchars, List.take_left, Guarded.front, List.append_assoc]
    · rw [List.mem_append, not_or]
      exact ⟨number_sign_notMem_front h hmarker, Guarded.number_sign_notMem hparts⟩
    · exact fun c hc => List.mem_takeWhile_imp hc

private theorem pinned_scopeEffect (h : read? number text = some line)
    (hmarker : line.marker = .scope) (options : Options) (taken : String → Option Nat) :
    ∀ diagnostic ∈ (line.scopeEffect options taken).diagnostics,
      line.Pinned text judge diagnostic := by
  have hmisaligned : ∀ diagnostic ∈ line.misaligned, line.Pinned text judge diagnostic :=
    pinned_misaligned h
  unfold scopeEffect
  split
  · exact hmisaligned
  · cases hname : line.excerpt? with
    | none =>
      intro diagnostic hmem
      rcases List.mem_append.mp hmem with hearly | hlate
      · exact hmisaligned diagnostic hearly
      · rw [List.mem_singleton.mp hlate]
        exact pinned_bare h _
    | some name =>
      dsimp only
      cases taken name.text with
      | none => exact hmisaligned
      | some first =>
        cases options.duplicates with
        | fail => exact hmisaligned
        | report =>
          intro diagnostic hmem
          rcases List.mem_append.mp hmem with hearly | hlate
          · exact hmisaligned diagnostic hearly
          · rw [List.mem_singleton.mp hlate]
            exact ⟨rfl, excerpt_column_lt h hname,
              .duplicateScope first hmarker hname (standsAt_excerpt h hname)⟩

private theorem pinned_choiceEffect (h : read? number text = some line)
    (hmarker : line.marker = .choice) :
    ∀ diagnostic ∈ (line.choiceEffect judge).diagnostics, line.Pinned text judge diagnostic := by
  unfold choiceEffect
  cases hexcerpt : line.excerpt? with
  | none =>
    intro diagnostic hmem
    rw [List.mem_singleton.mp hmem]
    exact pinned_bare h _
  | some excerpt =>
    dsimp only
    cases hparts : Guarded.split? excerpt.text.toList with
    | none =>
      intro diagnostic hmem
      contradiction
    | some parts =>
      dsimp only
      unfold guardedEffect
      intro diagnostic hmem
      split at hmem
      · rw [List.mem_singleton.mp hmem]
        exact ⟨rfl, condition_column_lt h hexcerpt hparts, .nothingAfter ..⟩
      · cases hjudge : judge (.condition parts.condition) with
        | none =>
          rw [hjudge] at hmem
          contradiction
        | some rejection =>
          rw [hjudge] at hmem
          rw [List.mem_singleton.mp hmem]
          exact pinned_condition h hmarker hexcerpt hparts hjudge

/-- What is found at a line that is not too deep points at the line. -/
theorem pinned_effect (h : read? number text = some line) (options : Options)
    (judge : Query → Option Rejection) (taken : String → Option Nat) :
    ∀ diagnostic ∈ (line.effect options judge taken).diagnostics,
      line.Pinned text judge diagnostic := by
  have hbare (hint : String) : ∀ diagnostic ∈ (line.bare hint).diagnostics,
      line.Pinned text judge diagnostic := by
    intro diagnostic hmem
    rw [List.mem_singleton.mp hmem]
    exact pinned_bare h hint
  unfold effect
  cases hmarker : line.marker with
  | scope => exact pinned_scopeEffect h hmarker options taken
  | choice => exact pinned_choiceEffect h hmarker
  | comment => simp
  | command =>
    cases line.excerpt? with
    | none => exact hbare _
    | some => simp
  | jump =>
    cases line.excerpt? with
    | none => exact hbare _
    | some => simp
  | text => cases line.excerpt? <;> simp
  | back =>
    cases hextra : line.excerpt? with
    | none => simp
    | some extra =>
      intro diagnostic hmem
      rw [List.mem_singleton.mp hmem]
      exact ⟨rfl, excerpt_column_lt h hextra,
        .ignoredText hmarker hextra (standsAt_excerpt h hextra)⟩

theorem pinned_unknownScope (h : read? number text = some line) (hmarker : line.marker = .jump)
    {key : Excerpt} (hkey : line.excerpt? = some key) :
    line.Pinned text judge (line.complaint line.restColumn (.unknownScope key.text)) := by
  refine ⟨rfl, ?_, .unknownScope hmarker (by rw [hkey, Option.map_some]) ⟨line.lead, ?_, ?_⟩⟩
  · obtain ⟨hcolumn, after, hchars⟩ := exists_chars_eq hkey
    have hlt := excerpt_column_lt h hkey
    have hle : line.restColumn ≤ line.front.length := by
      rw [front, List.length_append, length_lead_append_sign]
      exact Nat.le_add_right _ _
    exact Nat.lt_of_le_of_lt (hcolumn ▸ hle) hlt
  · rw [← hmarker]
    exact take_restColumn h
  · exact isBlank_of_mem_lead h

end Pinned

theorem exists_excerpt_of_jump {options : Options} {judge : Query → Option Rejection}
    {taken : String → Option Nat} {column : Nat} {key : String} {target : Option NodeId}
    (h : (line.effect options judge taken).growth = .leaf column (.jump key target)) :
    line.marker = .jump ∧ line.excerpt? = some ⟨column, key⟩ := by
  generalize heffect : line.effect options judge taken = effect at h
  have hacts := line.acts_effect options judge taken
  rw [heffect] at hacts
  cases hacts with
  | jump excerpt hmarker hkey =>
    obtain ⟨rfl, hjump⟩ := Growth.leaf.inj h
    obtain ⟨rfl, _⟩ := Leaf.jump.inj hjump
    exact ⟨hmarker, hkey⟩
  | text | comment | back => exact absurd (Growth.leaf.inj h).2 Leaf.noConfusion
  | _ => contradiction

end Line

section Origin

variable {options : Options} {checker : Checker} {lines : List String} {reading : Reading} {i : Nat}

theorem Reading.exists_step_of_mem {α : Type} (view : Reading → List α)
    (hstart : view (stage options checker lines 0) = []) {a : α}
    (hmem : a ∈ view (stage options checker lines i)) :
    ∃ step < i, a ∉ view (stage options checker lines step) ∧
      a ∈ view (stage options checker lines (step + 1)) := by
  induction i with
  | zero =>
    rw [hstart] at hmem
    contradiction
  | succ i ih =>
    by_cases hbefore : a ∈ view (stage options checker lines i)
    · obtain ⟨step, hlt, hstep⟩ := ih hbefore
      exact ⟨step, Nat.lt_succ_of_lt hlt, hstep⟩
    · exact ⟨i, Nat.lt_succ_self i, hbefore, hmem⟩

theorem Reading.exists_origin (h : read options checker lines = .ok reading)
    (hi : i ≤ lines.length) :
    ∀ diagnostic ∈ (stage options checker lines i).diagnostics.toList,
      ∃ line, Line.at? lines line.number = some line ∧
        (diagnostic = line.complaint line.column .tooDeep ∨ diagnostic ∈
          ((stage options checker lines line.number).effect options checker line).diagnostics) := by
  intro diagnostic hmem
  obtain ⟨step, hstep, hbefore, hafter⟩ :=
    exists_step_of_mem (fun reading => reading.diagnostics.toList) rfl hmem
  rcases stage_cases h (Nat.lt_of_lt_of_le hstep hi) with
    ⟨_, hnext⟩ | ⟨line, hat, ⟨_, hnext⟩ | ⟨_, hnext⟩⟩
  · rw [hnext] at hafter
    exact absurd hafter hbefore
  · rw [hnext, Array.toList_push] at hafter
    obtain rfl := Line.number_of_at? hat
    have hnew := (List.mem_append.mp hafter).resolve_left hbefore
    exact ⟨line, hat, .inl (List.mem_singleton.mp hnew)⟩
  · rw [hnext, absorb, Array.toList_appendList] at hafter
    obtain rfl := Line.number_of_at? hat
    exact ⟨line, hat, .inr ((List.mem_append.mp hafter).resolve_left hbefore)⟩

theorem Reading.exists_line_of_link (h : read options checker lines = .ok reading)
    (hi : i ≤ lines.length) :
    ∀ link ∈ (stage options checker lines i).links.toList,
      ∃ line key, Line.at? lines line.number = some line ∧ line.marker = .jump ∧
        line.excerpt? = some key ∧
        link = ⟨link.node, key.text, line.number, line.restColumn⟩ := by
  intro link hmem
  obtain ⟨step, hstep, hbefore, hafter⟩ :=
    exists_step_of_mem (fun reading => reading.links.toList) rfl hmem
  rcases stage_cases h (Nat.lt_of_lt_of_le hstep hi) with
    ⟨_, hnext⟩ | ⟨line, hat, ⟨_, hnext⟩ | ⟨_, hnext⟩⟩
  · rw [hnext] at hafter
    exact absurd hafter hbefore
  · rw [hnext] at hafter
    exact absurd hafter hbefore
  · rw [hnext, absorb, Array.toList_appendList] at hafter
    obtain rfl := Line.number_of_at? hat
    have hnew := (List.mem_append.mp hafter).resolve_left hbefore
    obtain ⟨column, key, target, hgrowth, rfl⟩ := Growth.exists_jump_of_mem_links hnew
    obtain ⟨hmarker, hkey⟩ := Line.exists_excerpt_of_jump hgrowth
    exact ⟨line, _, hat, hmarker, hkey, rfl⟩

end Origin

/-- A diagnostic points at its line, or at a command that was rejected and cut off. -/
inductive Script.Points (script : Script) (options : Options) (checker : Checker)
    (lines : List String) (text : List Char) (diagnostic : Diagnostic) : Prop
  | line {line : Line} (hread : Line.read? diagnostic.line text = some line)
      (hpinned : line.Pinned text
        ((Progress.before options checker lines line.number).judge checker) diagnostic)
  | command {id : NodeId} {span : Span} {command : String} {children : List NodeId}
      {rejection : Rejection}
      (hnode : script.tree.get? id = some ⟨span, .block (.command command) children⟩)
      (hspan : diagnostic = ⟨span.line, span.column, .rejectedCommand rejection⟩)
      (hverdict : ∃ place, checker.Judges (parseLines options checker lines).asked place
        (.command command) (some rejection))
      (hcut : ¬ script.tree.Within Tree.root id)

/-- Every place that a script gives is one in its lines, and what it is about stands there. -/
structure Script.Positioned (script : Script) (options : Options) (checker : Checker)
    (lines : List String) : Prop where
  nodes : ∀ id node, id ≠ Tree.root → script.tree.get? id = some node → ∃ text line,
    lines[node.span.line]? = some text ∧ Line.read? node.span.line text.toList = some line ∧
      line.Displays text.toList node.span.column node.content
  diagnostics : ∀ diagnostic ∈ script.diagnostics, diagnostic.line < script.lineCount ∧
    ∃ text, lines[diagnostic.line]? = some text ∧ diagnostic.column < text.toList.length ∧
      script.Points options checker lines text.toList diagnostic

section Parse

variable {options : Options} {checker : Checker} {lines : List String} {script : Script}
  {reading : Reading} {whole : Tree} {asked : Array Query} {diagnostic : Diagnostic}

theorem exists_displays_of_ok (h : (parseLines options checker lines).result = .ok script)
    {id : NodeId} {node : Node} (hne : id ≠ Tree.root) (hnode : script.tree.get? id = some node) :
    ∃ text line, lines[node.span.line]? = some text ∧
      Line.read? node.span.line text.toList = some line ∧
      line.Displays text.toList node.span.column node.content := by
  have hmark : script.tree.mark? id = some node.mark := by rw [Tree.mark?, hnode, Option.map_some]
  obtain ⟨mark, sources, hsame, hsay, hsources⟩ :=
    (account_of_ok h).said id hne (Tree.lt_size_of_mark? hmark)
  obtain rfl := Option.some.inj (hmark.symm.trans hsame)
  obtain ⟨first, rest, rfl, hnumber, hdisplays⟩ := hsay.exists_displays
  obtain ⟨_, hat, _⟩ := (hsources.mem_iff first).mp List.mem_cons_self
  obtain ⟨text, htext, hread⟩ := Option.bind_eq_some_iff.mp hat
  obtain ⟨hlt, shown, hshows, hstands⟩ := hdisplays _ hread
  have hline : first.number = node.span.line := hnumber
  rw [hline] at htext hread
  exact ⟨text, first, htext, hread, hlt, shown, hshows.of_bare, hstands⟩

theorem points_of_pinned {line : Line} (hread : Reading.read options checker lines = .ok reading)
    (hcount : script.lineCount = lines.length) (hat : Line.at? lines line.number = some line)
    (hpinned : ∀ text, Line.read? line.number text = some line → line.Pinned text
      ((Reading.stage options checker lines line.number).judge checker) diagnostic) :
    diagnostic.line < script.lineCount ∧ ∃ text, lines[diagnostic.line]? = some text ∧
      diagnostic.column < text.toList.length ∧
      script.Points options checker lines text.toList diagnostic := by
  obtain ⟨text, htext, hline⟩ := Option.bind_eq_some_iff.mp hat
  have hpinned := hpinned _ hline
  have hjudge : (Progress.before options checker lines line.number).judge checker =
      (Reading.stage options checker lines line.number).judge checker :=
    Progress.judge_eq (Progress.matches_stage hread line.number).asked
  have hsource : Line.read? diagnostic.line text.toList = some line := hpinned.line_eq ▸ hline
  rw [hcount, hpinned.line_eq]
  exact ⟨Line.lt_length_of_at? hat, text, htext, hpinned.column_lt,
    .line hsource (hjudge ▸ hpinned)⟩

theorem Review.exists_judges_of_rejects {ids : List NodeId} {asked : Array Query} {id : NodeId}
    {rejection : Rejection} (h : Rejects checker whole asked ids id rejection) :
    ∃ command, whole.command? id = some command ∧ ∃ place,
      checker.Judges (asked ++ queries whole ids) place (.command command) (some rejection) := by
  obtain ⟨before, after, command, rfl, hcommand, hverdict⟩ := h
  refine ⟨command, hcommand, _, _, (queries whole after).toArray, ?_, rfl, hverdict⟩
  apply Array.toList_inj.mp
  simp [queries, hcommand]

theorem Script.Settled.exists_cut_command (h : script.Settled checker asked reading whole)
    {rejected : NodeId × Rejection} (hmem : rejected ∈
      Review.rejections checker whole reading.asked whole.walk.reverse) :
    ∃ span command children,
      script.tree.get? rejected.1 = some ⟨span, .block (.command command) children⟩ ∧
      Review.complaint whole rejected = ⟨span.line, span.column, .rejectedCommand rejected.2⟩ ∧
      (∃ place, checker.Judges asked place (.command command) (some rejected.2)) ∧
      ¬ script.tree.Within Tree.root rejected.1 ∧ rejected.1 ≠ Tree.root := by
  obtain ⟨command, hcommand, hjudges⟩ :=
    Review.exists_judges_of_rejects (Review.mem_rejections_iff.mp hmem)
  obtain ⟨span, children, hnode⟩ := Tree.exists_node_of_command? hcommand
  have hroot : whole.isScope Tree.root = true :=
    (h.drawn.isScope _).trans h.regular.isScopeAt_root
  have hcut : rejected.1 ∈ ((Review.rejections checker whole reading.asked
      whole.walk.reverse).map Prod.fst).reverse :=
    List.mem_reverse.mpr (List.mem_map_of_mem hmem)
  have hnone : Tree.root ∉ ((Review.rejections checker whole reading.asked
      whole.walk.reverse).map Prod.fst).reverse := by
    rw [List.mem_reverse]
    exact Review.not_mem_rejections_of_isScope hroot
  have hid : rejected.1 < whole.size :=
    Tree.lt_size_of_label? ((Tree.label?_eq ..).trans (congrArg _ hnode))
  have hget := Tree.get?_detach whole ((Review.rejections checker whole reading.asked
    whole.walk.reverse).map Prod.fst).reverse rejected.1
  rw [hnode, ← h.tree] at hget
  refine ⟨span, command, _, hget, ?_, h.asked ▸ hjudges, fun hwithin => ?_, ?_⟩
  · simp [Review.complaint, Tree.lineOf, Tree.columnOf, Tree.mark?, hnode, Node.mark]
  · rw [h.tree, h.drawn.shaped.within_root_detach_iff hnone hid] at hwithin
    exact hwithin _ hcut .self
  · intro heq
    rw [← heq, Tree.isScope_of_command? hcommand] at hroot
    contradiction

/-- All places of a script are right. -/
theorem positioned_of_ok (h : (parseLines options checker lines).result = .ok script) :
    script.Positioned options checker lines := by
  obtain ⟨reading, hread, hsettled⟩ := settled_of_ok h
  have hcount := hsettled.lineCount.trans (Reading.lineCount_of_read hread)
  have hfound := Reading.exists_origin hread (Nat.le_refl _)
  have hlinks := Reading.exists_line_of_link hread (Nat.le_refl _)
  rw [Reading.stage_length hread] at hfound hlinks
  refine ⟨fun id node hne hnode => exists_displays_of_ok h hne hnode, fun diagnostic hmem => ?_⟩
  rw [hsettled.diagnostics] at hmem
  rcases List.mem_append.mp hmem with hmem | hrejected
  · rcases List.mem_append.mp hmem with hscanned | hunknown
    · obtain ⟨line, hat, rfl | heffect⟩ := hfound diagnostic hscanned
      · exact points_of_pinned hread hcount hat fun text hline => Line.pinned_tooDeep hline
      · refine points_of_pinned hread hcount hat fun text hline => ?_
        exact Line.pinned_effect hline options _ _ diagnostic heffect
    · obtain ⟨link, hlink, hcomplaint⟩ := List.mem_filterMap.mp hunknown
      obtain ⟨line, key, hat, hmarker, hkey, hsame⟩ := hlinks link hlink
      refine points_of_pinned hread hcount hat fun text hline => ?_
      rw [(Link.complaint?_eq_some_iff.mp hcomplaint).2, hsame]
      exact Line.pinned_unknownScope hline hmarker hkey
  · obtain ⟨rejected, hcut, rfl⟩ := List.mem_map.mp hrejected
    obtain ⟨span, command, children, hnode, hcomplaint, hjudges, hwithin, hne⟩ :=
      hsettled.exists_cut_command hcut
    obtain ⟨text, line, htext, hline, hlt, _⟩ := exists_displays_of_ok h hne hnode
    have hlast : span.line < lines.length := (List.getElem?_eq_some_iff.mp htext).1
    rw [hcomplaint, hcount]
    exact ⟨hlast, text, htext, hlt, .command hnode rfl hjudges hwithin⟩

end Parse

/-- Blanks and characters of several bytes stand before, between and behind what is reported. -/
theorem positioned_of_wide_characters :
    let checker : Checker := ⟨fun _ query =>
      if query.text = "näh" ∨ query.text = "näh\ntwo" then some ⟨"no"⟩ else none⟩
    let lines := ["\u3000\t= ä", "\u3000=\u00A0ß", "*\u2003ü #\u3000näh #", "->\u2003ö",
      "<-\u3000ï", "\u00A0# näh", "# two", "\t//", "= ß"]
    ∃ script, (parseLines ⟨.report, false⟩ checker lines).result = .ok script ∧
      script.Positioned ⟨.report, false⟩ checker lines ∧
      script.diagnostics = [⟨0, 2, .tooDeep⟩, ⟨2, 6, .rejectedCondition ⟨"no"⟩⟩,
        ⟨4, 3, .ignoredText "ï"⟩, ⟨8, 2, .duplicateScope "ß" 1⟩, ⟨3, 2, .unknownScope "ö"⟩,
        ⟨5, 3, .rejectedCommand ⟨"no"⟩⟩] := by
  intro checker lines
  have hparsed : (parseLines ⟨.report, false⟩ checker lines).result.toOption.map
      Script.diagnostics = some [⟨0, 2, .tooDeep⟩, ⟨2, 6, .rejectedCondition ⟨"no"⟩⟩,
        ⟨4, 3, .ignoredText "ï"⟩, ⟨8, 2, .duplicateScope "ß" 1⟩, ⟨3, 2, .unknownScope "ö"⟩,
        ⟨5, 3, .rejectedCommand ⟨"no"⟩⟩] := by
    decide +kernel
  obtain ⟨script, hparse, hdiagnostics⟩ := exists_ok_of_map_toOption hparsed
  exact ⟨script, hparse, positioned_of_ok hparse, hdiagnostics⟩

end Dialogue
