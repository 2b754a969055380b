import Dialogue.Proofs.Line.Places
import Dialogue.Proofs.Parse.Arena
import Dialogue.Proofs.Parse.Feeding
import Dialogue.Proofs.Parse.Findings
import Dialogue.Proofs.Parse.Policies

/-! Branches that are never taken. Whenever a line is met, the blocks that are open hang together
and every number that is stored is that of a node, so that what is there for the case that it
were otherwise does not come about. -/
namespace Dialogue

open Text (byteLength cutAt)

namespace Tree

variable {tree : Tree} {entries : List Entry} {id : NodeId}

def IsOutermost (tree : Tree) (id : NodeId) : Prop :=
  id = root ∨ id ∈ tree.children root ∧ ∃ key, tree.label? id = some (.block (.scope (some key)) [])

def IsInner (tree : Tree) (id : NodeId) : Prop :=
  (∃ text, tree.label? id = some (.block (.command text) [])) ∨
    ∃ text condition, tree.label? id = some (.block (.choice text condition) [])

private theorem isInner_of_isBlock (hblock : tree.isBlock id = true)
    (hscope : tree.isScope id = false) :
    tree.IsInner id := by
  rw [isBlock, label?_eq] at hblock
  rw [isScope] at hscope
  rw [IsInner, label?_eq]
  cases hnode : tree.get? id with
  | none => rw [hnode] at hblock; contradiction
  | some node =>
    obtain ⟨span, content⟩ := node
    rw [hnode] at hblock hscope
    cases content with
    | leaf => contradiction
    | block block children =>
      cases block with
      | scope => contradiction
      | command text => exact .inl ⟨text, rfl⟩
      | choice text condition => exact .inr ⟨text, condition, rfl⟩

private theorem Drawn.isOutermost (h : tree.Drawn entries) (hregular : Sketch.Regular entries)
    (hscope : Sketch.isScopeAt entries id = true) : tree.IsOutermost id := by
  by_cases hroot : id = root
  · exact .inl hroot
  · obtain ⟨key, hkey⟩ := hregular.section_key id (Nat.pos_of_ne_zero hroot) hscope
    exact .inr ⟨h.mem_children_root hregular hroot hscope, key, (h.label? id).trans hkey⟩

end Tree

namespace Sketch

theorem Branch.exists_outermost {entries : List Entry} {opened : List Nat}
    (h : Branch entries opened) : ∃ inner outermost, opened = inner ++ [outermost] ∧
      isScopeAt entries outermost = true ∧
      ∀ id ∈ inner, isBlockAt entries id = true ∧ isScopeAt entries id = false := by
  induction h with
  | @scope id hscope => exact ⟨[], id, rfl, hscope, by simp⟩
  | @block id outer below hblock hscope _ _ _ ih =>
    obtain ⟨inner, outermost, hopened, houtermost, hinner⟩ := ih
    refine ⟨id :: inner, outermost, by rw [hopened, List.cons_append], houtermost, ?_⟩
    intro other hother
    rcases List.mem_cons.mp hother with rfl | hrest
    · exact ⟨hblock, hscope⟩
    · exact hinner other hrest

end Sketch

/-- Some block is open, only the outermost one is a section, and all numbers are those of nodes. -/
structure Draft.Sound (draft : Draft) : Prop where
  innermost : ∃ below, draft.opened = draft.innermost :: below
  opened : ∃ inner outermost, draft.opened = inner ++ [outermost] ∧
    draft.tree.IsOutermost outermost ∧ ∀ id ∈ inner, draft.tree.IsInner id
  opened_lt : ∀ id ∈ draft.opened, id < draft.tree.size
  children_lt : ∀ id, ∀ child ∈ draft.tree.children id, child < draft.tree.size
  names_lt : ∀ name ∈ draft.tree.names, name.2 < draft.tree.size

private theorem Draft.Matches.sound {draft : Draft} {entries : List Entry}
    (h : draft.Matches entries) :
    draft.Sound := by
  have hsize := h.drawn.size_eq
  constructor
  · exact h.exists_opened
  · obtain ⟨inner, outermost, hopened, houtermost, hinner⟩ := h.branch.exists_outermost
    refine ⟨inner, outermost, hopened, h.drawn.isOutermost h.regular houtermost, fun id hid => ?_⟩
    obtain ⟨hblock, hscope⟩ := hinner id hid
    exact Tree.isInner_of_isBlock ((h.drawn.isBlock id).trans hblock)
      ((h.drawn.isScope id).trans hscope)
  · intro id hid
    rw [hsize]
    exact h.branch.lt_length_of_mem hid
  · intro id child hchild
    exact ((h.drawn.shaped.mem_children_iff id child).mp hchild).1
  · intro name hname
    rw [hsize]
    exact Sketch.lt_length_of_mem_names (h.names ▸ hname)

def Tree.HasJump (tree : Tree) (link : Link) : Prop :=
  link.node < tree.size ∧ tree.label? link.node = some (.leaf (.jump link.key none))

theorem Tree.Drawn.hasJump {tree : Tree} {entries : List Entry} {link : Link}
    (h : tree.Drawn entries) (hjump : (link.node, link.key) ∈ Sketch.jumps entries) :
    tree.HasJump link := by
  obtain ⟨⟨level, line, column, label⟩, hentry, hkey⟩ :=
    Option.bind_eq_some_iff.mp (Sketch.mem_jumps_iff.mp hjump)
  have hmark := h.mark? link.node
  rw [hentry, Option.map_some] at hmark
  obtain ⟨⟨span, content⟩, hnode, hsame⟩ := Option.map_eq_some_iff.mp hmark
  obtain rfl : content.bare = label := congrArg Mark.label hsame
  refine ⟨Tree.lt_size_of_mark? hmark, ?_⟩
  rw [Tree.label?_eq, hnode, Option.map_some]
  cases content with
  | block => contradiction
  | leaf leaf =>
    cases leaf with
    | jump key target => rw [← Option.some.inj hkey]; rfl
    | _ => contradiction

namespace Progress

variable {options : Options} {checker : Checker} {lines : List String} {progress : Progress}
  {reading : Reading} {i : Nat}

structure Sound (progress : Progress) : Prop where
  draft : progress.draft.Sound
  links : ∀ link ∈ progress.links.toList, progress.draft.tree.HasJump link

theorem Matches.sound (h : progress.Matches reading)
    (hlinks : (reading.links.toList.map fun link => (link.node, link.key)) =
      Sketch.jumps reading.entries) : progress.Sound := by
  refine ⟨h.draft.sound, fun link hlink => h.draft.drawn.hasJump ?_⟩
  rw [← hlinks]
  exact List.mem_map_of_mem (f := fun link : Link => (link.node, link.key)) (h.links ▸ hlink)

theorem exists_matches_of_running (h : (before options checker lines i).status = .running) :
    ∃ reading, Reading.read options checker (lines.take i) = .ok reading ∧
      (before options checker lines i).Matches reading := by
  have hkeeps := keeps_read options checker (lines.take i)
  rw [← before] at hkeeps
  cases hread : Reading.read options checker (lines.take i) with
  | ok reading =>
    rw [hread] at hkeeps
    exact ⟨reading, rfl, hkeeps⟩
  | error error =>
    rw [hread] at hkeeps
    have hfailed : (before options checker lines i).status = .failed error := hkeeps
    rw [hfailed] at h
    contradiction

private theorem sound_of_running (h : (before options checker lines i).status = .running) :
    (before options checker lines i).Sound := by
  obtain ⟨reading, hread, hmatches⟩ := exists_matches_of_running h
  exact hmatches.sound (Reading.links_eq hread)

/-- Blocks are closed without complaint, and what is left is sound again. -/
theorem exists_dedent_of_running (h : (before options checker lines i).status = .running)
    {depth : Nat} (hpos : 0 < depth)
    (hdepth : depth ≤ (before options checker lines i).draft.opened.length) (line : Nat) :
    ∃ draft, Draft.dedent depth line (before options checker lines i).draft.tree
        (before options checker lines i).draft.opened = (true, draft) ∧
      draft.opened = (before options checker lines i).draft.opened.drop
        ((before options checker lines i).draft.opened.length - depth) ∧
      ({ before options checker lines i with draft } : Progress).Sound := by
  obtain ⟨reading, hread, hmatches⟩ := exists_matches_of_running h
  obtain ⟨hshut, hlength⟩ := hmatches.draft.shut hpos hdepth line
  have hleft : ({ before options checker lines i with
      draft := (before options checker lines i).draft.shut depth line } : Progress).Matches
        { reading with room := depth } :=
    ⟨hmatches.running, hshut, hlength, hmatches.lineCount, hmatches.links, hmatches.diagnostics,
      hmatches.asked⟩
  have hlinks := Reading.links_eq hread
  exact ⟨_, hmatches.draft.dedent_eq_shut hpos hdepth line, rfl, hleft.sound hlinks⟩

theorem before_succ_of_running (h : (before options checker lines i).status = .running)
    {text : String} (htext : lines[i]? = some text) :
    before options checker lines (i + 1) =
      match Line.read? i text.toList with
      | none => { before options checker lines i with lineCount := i + 1 }
      | some line => Progress.place options checker
          (({ before options checker lines i with lineCount := i + 1 } : Progress).note
            (.lineRead line.number line.depth line.marker)) line := by
  have hlt := (List.getElem?_eq_some_iff.mp htext).1
  have hfeed : (before options checker lines i).feed options checker text = _ :=
    feed_of_running h text
  rw [lineCount_before (Nat.le_of_lt hlt) h] at hfeed
  exact (before_succ htext).trans hfeed

/-- A parse that is not running has met a section whose name is taken. -/
structure Ends (options : Options) (checker : Checker) (lines : List String) (i : Nat)
    (error : ParseError) : Prop where
  fails : options.duplicates = .fail
  taken : ∃ line name first, line.number < i ∧ Line.at? lines line.number = some line ∧
    line.marker = .scope ∧ line.excerpt? = some name ∧
    (before options checker lines line.number).status = .running ∧
    (before options checker lines line.number).taken name.text = some first ∧
    error = .duplicateScope name.text line.number first

private theorem take_eq_of_take_append {early after : List String} {text : String}
    (h : lines.take i = early ++ text :: after) :
    early.length < i ∧ lines.take early.length = early ∧ lines[early.length]? = some text := by
  have hlength := congrArg List.length h
  rw [List.length_take, List.length_append, List.length_cons] at hlength
  have hlt : early.length < i := by omega
  refine ⟨hlt, ?_, ?_⟩
  · have hmore := congrArg (List.take early.length) h
    rw [List.take_take, Nat.min_eq_left (Nat.le_of_lt hlt), List.take_left] at hmore
    exact hmore
  · have hget := congrArg (·[early.length]?) h
    simpa [List.getElem?_take, hlt] using hget

private theorem ends_of_error {error : ParseError}
    (h : Reading.read options checker (lines.take i) = .error error) :
    Ends options checker lines i error := by
  obtain ⟨early, text, after, last, hsplit, hearly, hfailed⟩ := Reading.exists_of_foldlM_error h
  obtain ⟨line, hline, _, hfailure⟩ := Reading.exists_failure_of_feed hfailed
  have hcount : last.lineCount = early.length := Reading.lineCount_of_read hearly
  have hnumber : line.number = early.length := (Line.number_of_read? hline).trans hcount
  obtain ⟨hlt, htake, htext⟩ := take_eq_of_take_append hsplit
  have hmatches : (before options checker lines line.number).Matches last := by
    have hkeeps := keeps_read options checker early
    rw [hnumber, before, htake]
    rw [Reading.read, hearly] at hkeeps
    exact hkeeps
  have hat : Line.at? lines line.number = some line := by
    rw [hnumber, Line.at?, htext, Option.bind_some, ← hcount]
    exact hline
  rw [Reading.effect, Line.failure_effect, ← taken_eq hmatches.draft] at hfailure
  cases hpolicy : options.duplicates with
  | report =>
    rw [hpolicy] at hfailure
    contradiction
  | fail =>
    rw [hpolicy] at hfailure
    obtain ⟨key, hkey, hmap⟩ := Option.bind_eq_some_iff.mp hfailure
    obtain ⟨first, hfirst, rfl⟩ := Option.map_eq_some_iff.mp hmap
    unfold Line.declared? at hkey
    split at hkey
    next hscope =>
      obtain ⟨name, hname, rfl⟩ := Option.map_eq_some_iff.mp hkey
      exact ⟨hpolicy, line, name, first, hnumber ▸ hlt, hat, hscope.1, hname, hmatches.running,
        hfirst, rfl⟩
    next => contradiction

/-- At every line the parse is running, or it has failed at an earlier one. -/
theorem running_or_ends (options : Options) (checker : Checker) (lines : List String) (i : Nat) :
    (before options checker lines i).status = .running ∨
      ∃ error, (before options checker lines i).status = .failed error ∧
        Ends options checker lines i error := by
  have hkeeps := keeps_read options checker (lines.take i)
  rw [← before] at hkeeps
  cases hread : Reading.read options checker (lines.take i) with
  | ok reading =>
    rw [hread] at hkeeps
    exact .inl (Matches.running hkeeps)
  | error error =>
    rw [hread] at hkeeps
    exact .inr ⟨error, hkeeps, ends_of_error hread⟩

private theorem cause_ne_place (h : progress.Matches reading)
    (hnone : ∀ diagnostic ∈ progress.journal.diagnostics.toList, diagnostic.cause ≠ .invalidDedent)
    (line : Line) :
    ∀ diagnostic ∈ (progress.place options checker line).journal.diagnostics.toList,
      diagnostic.cause ≠ .invalidDedent := by
  intro diagnostic hmem
  by_cases hdeep : progress.draft.opened.length < line.depth
  · rw [place, if_pos hdeep] at hmem
    have hsplit : diagnostic ∈ progress.journal.diagnostics.toList ++
        [line.complaint line.column .tooDeep] := by
      rw [← Array.toList_push]
      exact hmem
    rcases List.mem_append.mp hsplit with hold | hnew
    · exact hnone diagnostic hold
    · exact (line.found_singleton line.column rfl diagnostic hnew).cause_ne
  · rw [h.place_eq (Nat.le_of_not_lt hdeep)] at hmem
    have hsplit : diagnostic ∈ progress.journal.diagnostics.toList ++
        (line.effect options (progress.judge checker) progress.taken).diagnostics := by
      rw [← Array.toList_appendList]
      exact hmem
    rcases List.mem_append.mp hsplit with hold | hnew
    · exact hnone diagnostic hold
    · exact (line.found_effect options _ _ diagnostic hnew).cause_ne

theorem cause_ne_before (options : Options) (checker : Checker) (lines : List String) (i : Nat) :
    ∀ diagnostic ∈ (before options checker lines i).journal.diagnostics.toList,
      diagnostic.cause ≠ .invalidDedent := by
  induction i with
  | zero =>
    intro diagnostic hmem
    contradiction
  | succ i ih =>
    cases htext : lines[i]? with
    | none =>
      rw [before, List.take_add_one, htext, Option.toList_none, List.append_nil]
      exact ih
    | some text =>
      rcases running_or_ends options checker lines i with hrunning | ⟨error, hfailed, _⟩
      · obtain ⟨reading, _, hmatches⟩ := exists_matches_of_running hrunning
        rw [before_succ_of_running hrunning htext]
        cases Line.read? i text.toList with
        | none => exact ih
        | some line =>
          have hnoted : (({ before options checker lines i with
              lineCount := i + 1 } : Progress).note
                (.lineRead line.number line.depth line.marker)).Matches
                  { reading with lineCount := i + 1 } :=
            ⟨hmatches.running, hmatches.draft, hmatches.room, rfl, hmatches.links,
              hmatches.diagnostics, hmatches.asked⟩
          exact cause_ne_place hnoted ih line
      · rw [before_succ htext, feed, hfailed]
        exact ih

/-- Every link finds its jump, however many links were resolved before it. -/
theorem hasJump_of_links (h : (read options checker lines).status = .running)
    {early after : List Link} {link : Link}
    (hlinks : (read options checker lines).links.toList = early ++ link :: after) :
    (early.foldl (fun tree link => link.resolve tree)
      (read options checker lines).closed).HasJump link := by
  have hrunning : (before options checker lines lines.length).status = .running := by
    rwa [before, List.take_length]
  obtain ⟨reading, hread, hmatches⟩ := exists_matches_of_running hrunning
  rw [before, List.take_length] at hmatches
  have hclosed : (read options checker lines).closed.Drawn reading.entries :=
    (Draft.drawn_closeAll hmatches.draft.drawn _).close _ _
  refine (drawn_foldl_resolve hclosed early).1.hasJump ?_
  rw [← Reading.links_eq hread, ← hmatches.links, hlinks]
  exact List.mem_map_of_mem (f := fun link : Link => (link.node, link.key)) (by simp)

end Progress

theorem lineOf_lt_of_mem_walk {options : Options} {checker : Checker} {lines : List String}
    {script : Script} (h : (parseLines options checker lines).result = .ok script) {id : NodeId}
    (hid : id ∈ script.tree.walk) : script.tree.lineOf id < script.lineCount := by
  obtain ⟨reading, hread, hsettled⟩ := settled_of_ok h
  have hwhole := (Tree.walk_detach_sublist _ _).subset (hsettled.tree ▸ hid)
  obtain ⟨hpos, hlt⟩ := hsettled.drawn.shaped.mem_walk_iff.mp hwhole
  obtain ⟨line, hline, _, hnumber⟩ :=
    Progress.exists_creates_lineAt hread hpos (hsettled.drawn.size_eq ▸ hlt)
  rw [hsettled.pruned.lineOf, hnumber, hsettled.lineCount, Reading.lineCount_of_read hread]
  exact Line.lt_length_of_at? hline.at?

/-- What every parse comes to, so that no branch is taken that is there for the worst case. -/
structure Progress.Safe (options : Options) (checker : Checker) (lines : List String) : Prop where
  running_or_ends : ∀ i, (before options checker lines i).status = .running ∨
    ∃ error, (before options checker lines i).status = .failed error ∧
      Ends options checker lines i error
  sound : ∀ i, (before options checker lines i).status = .running →
    (before options checker lines i).Sound
  scanned : ∀ i text, lines[i]? = some text → (before options checker lines i).status = .running →
    before options checker lines (i + 1) =
      match Line.read? i text.toList with
      | none => { before options checker lines i with lineCount := i + 1 }
      | some line => place options checker
          (({ before options checker lines i with lineCount := i + 1 } : Progress).note
            (.lineRead line.number line.depth line.marker)) line
  dedent : ∀ i depth line, (before options checker lines i).status = .running → 0 < depth →
    depth ≤ (before options checker lines i).draft.opened.length →
    ∃ draft, Draft.dedent depth line (before options checker lines i).draft.tree
        (before options checker lines i).draft.opened = (true, draft) ∧
      draft.opened = (before options checker lines i).draft.opened.drop
        ((before options checker lines i).draft.opened.length - depth) ∧
      ({ before options checker lines i with draft } : Progress).Sound
  cause_ne : ∀ i, ∀ diagnostic ∈ (before options checker lines i).journal.diagnostics.toList,
    diagnostic.cause ≠ .invalidDedent
  worded : ∀ i line, Line.at? lines i = some line → line.marker = .text → line.excerpt? ≠ none
  guarded : ∀ chars parts, Guarded.split? chars = some parts ↔
    parts.chars = chars ∧ '#' ∉ parts.text ∧ '\n' ∉ parts.guard
  sliced : ∀ i text line, lines[i]? = some text → Line.read? i text.toList = some line →
    line.Sliced text.toList
  links : (read options checker lines).status = .running → ∀ early link after,
    (read options checker lines).links.toList = early ++ link :: after →
    (early.foldl (fun tree link => link.resolve tree)
      (read options checker lines).closed).HasJump link
  script : ∀ script, (parseLines options checker lines).result = .ok script →
    script.lineCount = lines.length ∧
      (∀ diagnostic ∈ script.diagnostics, diagnostic.cause ≠ .invalidDedent) ∧
      ∀ id ∈ script.tree.walk, script.tree.lineOf id < script.lineCount

/-- Whatever is parsed, the open blocks hang together and nothing is looked up in vain. -/
theorem parse_safe (options : Options) (checker : Checker) (lines : List String) :
    Progress.Safe options checker lines := by
  constructor
  case running_or_ends => exact Progress.running_or_ends options checker lines
  case sound => exact fun i hrunning => Progress.sound_of_running hrunning
  case scanned => exact fun i text htext hrunning => Progress.before_succ_of_running hrunning htext
  case dedent =>
    intro i depth line hrunning hpos hdepth
    exact Progress.exists_dedent_of_running hrunning hpos hdepth line
  case cause_ne => exact Progress.cause_ne_before options checker lines
  case worded =>
    intro i line hat hmarker
    obtain ⟨text, _, hread⟩ := Option.bind_eq_some_iff.mp hat
    exact Line.excerpt?_ne_none_of_text hread hmarker
  case guarded => exact fun chars parts => Guarded.split?_eq_some_iff
  case sliced => exact fun i text line _ hread => Line.sliced_of_read? hread
  case links => exact fun hrunning early link after => Progress.hasJump_of_links hrunning
  case script =>
    intro script h
    obtain ⟨reading, hread, hsettled⟩ := settled_of_ok h
    refine ⟨hsettled.lineCount.trans (Reading.lineCount_of_read hread),
      cause_ne_invalidDedent h, ?_⟩
    exact fun id hid => lineOf_lt_of_mem_walk h hid

end Dialogue
