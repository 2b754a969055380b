import Dialogue.Proofs.Parse.Verdicts

/-! Trials. A review puts the commands of a list of nodes to the checker, one after another,
and writes down what is rejected. -/
namespace Dialogue

def Tree.command? (tree : Tree) (id : NodeId) : Option String :=
  (tree.label? id).bind Content.command?

theorem Tree.exists_node_of_command? {tree : Tree} {id : NodeId} {text : String}
    (h : tree.command? id = some text) :
    ∃ span children, tree.get? id = some ⟨span, .block (.command text) children⟩ := by
  rw [command?, label?_eq] at h
  obtain ⟨label, hlabel, hcommand⟩ := Option.bind_eq_some_iff.mp h
  obtain ⟨⟨span, content⟩, hnode, rfl⟩ := Option.map_eq_some_iff.mp hlabel
  cases content with
  | leaf => contradiction
  | block block children =>
    cases block with
    | scope => contradiction
    | choice => contradiction
    | command found =>
      obtain rfl : found = text := Option.some.inj hcommand
      exact ⟨span, children, hnode⟩

theorem Tree.isScope_of_command? {tree : Tree} {id : NodeId} {text : String}
    (h : tree.command? id = some text) : tree.isScope id = false := by
  obtain ⟨span, children, hnode⟩ := exists_node_of_command? h
  rw [isScope, hnode]
  rfl

def Tree.columnOf (tree : Tree) (id : NodeId) : Nat := ((tree.mark? id).map Mark.column).getD 0

namespace Review

def queries (tree : Tree) (ids : List NodeId) : List Query :=
  ids.filterMap fun id => (tree.command? id).map .command

/-- The commands among some nodes that are rejected, with the verdicts, if `asked` is what
was asked before. -/
def rejections (checker : Checker) (tree : Tree) :
    Array Query → List NodeId → List (NodeId × Rejection)
  | _, [] => []
  | asked, id :: rest =>
    match tree.command? id with
    | none => rejections checker tree asked rest
    | some text =>
      match checker.rejects asked (.command text) with
      | none => rejections checker tree (asked.push (.command text)) rest
      | some rejection =>
        (id, rejection) :: rejections checker tree (asked.push (.command text)) rest

def complaint (tree : Tree) (rejected : NodeId × Rejection) : Diagnostic :=
  ⟨tree.lineOf rejected.1, tree.columnOf rejected.1, .rejectedCommand rejected.2⟩

/-- The verdict on a command, given all that was asked before. -/
def Rejects (checker : Checker) (tree : Tree) (asked : Array Query) (ids : List NodeId)
    (id : NodeId) (rejection : Rejection) : Prop :=
  ∃ before after text, ids = before ++ id :: after ∧ tree.command? id = some text ∧
    checker.rejects (asked ++ queries tree before) (.command text) = some rejection

variable {checker : Checker} {tree : Tree} {asked : Array Query} {ids : List NodeId} {id : NodeId}
  {rejection : Rejection}

theorem queries_cons (tree : Tree) (id : NodeId) (rest : List NodeId) :
    queries tree (id :: rest) = ((tree.command? id).map .command).toList ++ queries tree rest := by
  rw [queries, List.filterMap_cons]
  cases tree.command? id <;> rfl

private theorem rejects_cons_of_not_command (h : tree.command? id = none) (rest : List NodeId)
    (other : NodeId) :
    Rejects checker tree asked (id :: rest) other rejection ↔
      Rejects checker tree asked rest other rejection := by
  constructor
  · rintro ⟨before, after, text, hsplit, htext, hverdict⟩
    rcases List.cons_eq_append_iff.mp hsplit with ⟨rfl, heq⟩ | ⟨early, rfl, rfl⟩
    · rw [(List.cons.inj heq).1, h] at htext
      contradiction
    · refine ⟨early, after, text, rfl, htext, ?_⟩
      rwa [queries_cons, h] at hverdict
  · rintro ⟨before, after, text, rfl, htext, hverdict⟩
    refine ⟨id :: before, after, text, rfl, htext, ?_⟩
    rwa [queries_cons, h]

private theorem rejects_cons_of_command {text : String} (h : tree.command? id = some text)
    (rest : List NodeId) (other : NodeId) :
    Rejects checker tree asked (id :: rest) other rejection ↔
      (other = id ∧ checker.rejects asked (.command text) = some rejection) ∨
        Rejects checker tree (asked.push (.command text)) rest other rejection := by
  have hmore (before : List NodeId) : asked ++ queries tree (id :: before) =
      asked.push (.command text) ++ queries tree before := by
    rw [queries_cons, h]
    simp
  constructor
  · rintro ⟨before, after, found, hsplit, hfound, hverdict⟩
    rcases List.cons_eq_append_iff.mp hsplit with ⟨rfl, heq⟩ | ⟨early, rfl, rfl⟩
    · obtain ⟨rfl, _⟩ := List.cons.inj heq
      obtain rfl := Option.some.inj (h.symm.trans hfound)
      refine .inl ⟨rfl, ?_⟩
      simpa [queries] using hverdict
    · refine .inr ⟨early, after, found, rfl, hfound, ?_⟩
      rwa [← hmore]
  · rintro (⟨rfl, hverdict⟩ | ⟨before, after, found, rfl, hfound, hverdict⟩)
    · exact ⟨[], rest, text, rfl, h, by simpa [queries] using hverdict⟩
    · exact ⟨id :: before, after, found, rfl, hfound, by rwa [hmore]⟩

theorem mem_rejections_iff {rejected : NodeId × Rejection} :
    rejected ∈ rejections checker tree asked ids ↔
      Rejects checker tree asked ids rejected.1 rejected.2 := by
  induction ids generalizing asked with
  | nil =>
    refine iff_of_false List.not_mem_nil ?_
    rintro ⟨before, after, _, hsplit, _⟩
    exact List.append_ne_nil_of_right_ne_nil before (List.cons_ne_nil _ after) hsplit.symm
  | cons id rest ih =>
    rw [rejections]
    cases hcommand : tree.command? id with
    | none => exact ih.trans (rejects_cons_of_not_command hcommand rest _).symm
    | some text =>
      rw [rejects_cons_of_command hcommand, ← ih]
      dsimp only
      cases hverdict : checker.rejects asked (.command text) with
      | none => exact (or_iff_right fun h => nomatch h.2).symm
      | some rejection =>
        rw [List.mem_cons, Prod.ext_iff]
        exact or_congr_left (and_congr_right fun _ => ⟨fun h => h ▸ rfl, fun h =>
          (Option.some.inj h).symm⟩)

theorem not_mem_rejections_of_isScope (h : tree.isScope id = true) :
    id ∉ (rejections checker tree asked ids).map Prod.fst := by
  intro hmem
  obtain ⟨⟨found, rejection⟩, hrejected, rfl⟩ := List.mem_map.mp hmem
  obtain ⟨_, _, text, _, htext, _⟩ := mem_rejections_iff.mp hrejected
  rw [Tree.isScope_of_command? htext] at h
  contradiction

theorem rejections_sublist (checker : Checker) (tree : Tree) (asked : Array Query)
    (ids : List NodeId) : ((rejections checker tree asked ids).map Prod.fst).Sublist ids := by
  induction ids generalizing asked with
  | nil => exact .slnil
  | cons id rest ih =>
    rw [rejections]
    cases tree.command? id with
    | none => exact (ih asked).cons id
    | some text =>
      dsimp only
      cases checker.rejects asked (.command text) with
      | none => exact (ih _).cons id
      | some rejection => exact (ih _).cons_cons id

private theorem diagnostics_check_of_command (checker : Checker) (review : Review) {text : String}
    (h : tree.command? id = some text) :
    (review.check checker tree id).journal.diagnostics.toList =
      review.journal.diagnostics.toList ++
        ((checker.rejects review.journal.asked (.command text)).map fun rejection =>
          complaint tree (id, rejection)).toList := by
  obtain ⟨span, children, hnode⟩ := Tree.exists_node_of_command? h
  have hcomplaint (rejection : Rejection) :
      complaint tree (id, rejection) = ⟨span.line, span.column, .rejectedCommand rejection⟩ := by
    simp [complaint, Tree.lineOf, Tree.columnOf, Tree.mark?, hnode, Node.mark]
  simp only [check, hnode, Journal.ask, hcomplaint]
  cases checker.rejects review.journal.asked (.command text) with
  | none => exact (List.append_nil _).symm
  | some rejection => exact Array.toList_push

/-- What a review comes to. -/
theorem foldl_check (checker : Checker) (tree : Tree) (review : Review) (ids : List NodeId) :
    (ids.foldl (check checker tree) review).journal.asked =
        review.journal.asked ++ queries tree ids ∧
    (ids.foldl (check checker tree) review).rejected =
        ((rejections checker tree review.journal.asked ids).map Prod.fst).reverse ++
          review.rejected ∧
    (ids.foldl (check checker tree) review).journal.diagnostics.toList =
        review.journal.diagnostics.toList ++
          (rejections checker tree review.journal.asked ids).map (complaint tree) := by
  induction ids generalizing review with
  | nil => simp [queries, rejections]
  | cons id rest ih =>
    obtain ⟨hasked, hrejected, hdiagnostics⟩ := ih (review.check checker tree id)
    rw [List.foldl_cons, hasked, hrejected, hdiagnostics, queries_cons, rejections]
    cases hcommand : tree.command? id with
    | none =>
      rw [check_of_not_command hcommand]
      exact ⟨by simp, rfl, rfl⟩
    | some text =>
      obtain ⟨hfirst, hcut⟩ := check_of_command checker review hcommand
      rw [hfirst, hcut, diagnostics_check_of_command checker review hcommand]
      refine ⟨by simp, ?_⟩
      dsimp only
      cases checker.rejects review.journal.asked (.command text) with
      | none => exact ⟨rfl, by simp⟩
      | some rejection => exact ⟨by simp, by simp⟩

end Review

theorem Link.complaint?_eq {tree other : Tree} (h : tree.names = other.names) :
    Link.complaint? tree = Link.complaint? other := by
  funext link
  rw [complaint?, complaint?, Tree.find?, Tree.find?, h]

theorem Link.complaint?_eq_some_iff {tree : Tree} {link : Link} {diagnostic : Diagnostic} :
    link.complaint? tree = some diagnostic ↔ tree.find? link.key = none ∧
      diagnostic = ⟨link.line, link.column, .unknownScope link.key⟩ := by
  unfold complaint?
  cases tree.find? link.key with
  | none => simp [eq_comm]
  | some => simp

/-- How a script comes about, from the reading of its lines and the whole tree. -/
structure Script.Settled (script : Script) (checker : Checker) (asked : Array Query)
    (reading : Reading) (whole : Tree) : Prop where
  drawn : whole.Drawn reading.entries
  regular : Sketch.Regular reading.entries
  names : whole.names = Sketch.names reading.entries
  target? : ∀ id key, Sketch.labelAt? reading.entries id = some (.leaf (.jump key none)) →
    whole.target? id = whole.find? key
  lineCount : script.lineCount = reading.lineCount
  tree : script.tree = whole.detach
    ((Review.rejections checker whole reading.asked whole.walk.reverse).map Prod.fst).reverse
  asked : asked = reading.asked ++ Review.queries whole whole.walk.reverse
  diagnostics : script.diagnostics = reading.diagnostics.toList ++
    reading.links.toList.filterMap (Link.complaint? whole) ++
    (Review.rejections checker whole reading.asked whole.walk.reverse).map (Review.complaint whole)

namespace Script.Settled

variable {script : Script} {checker : Checker} {asked : Array Query} {reading : Reading}
  {whole : Tree}

theorem pruned (h : script.Settled checker asked reading whole) :
    script.tree.Pruned reading.entries
      ((Review.rejections checker whole reading.asked whole.walk.reverse).map Prod.fst).reverse := by
  rw [h.tree]
  exact h.drawn.pruned_detach h.regular h.names h.target? _

end Script.Settled

theorem settled_of_ok {options : Options} {checker : Checker} {lines : List String}
    {script : Script} (h : (parseLines options checker lines).result = .ok script) :
    ∃ reading, Reading.read options checker lines = .ok reading ∧
      script.Settled checker (parseLines options checker lines).asked reading
        (Progress.read options checker lines).linked := by
  obtain ⟨reading, hread, hmatches, hcount, review, hreview, htree, hdiagnostics, hasked⟩ :=
    exists_reading_of_ok h
  obtain ⟨hdrawn, hnames, htargets⟩ := hmatches.linked (Reading.links_eq hread)
  have hclosed : (Progress.read options checker lines).closed.names =
      (Progress.read options checker lines).linked.names :=
    ((Draft.names_closeAll ..).trans hmatches.draft.names).trans hnames.symm
  obtain ⟨hqueries, hrejected, hfound⟩ := Review.foldl_check checker
    (Progress.read options checker lines).linked
    { journal := (Progress.read options checker lines).linkJournal }
    (Progress.read options checker lines).linked.walk.reverse
  rw [← Review.ofTree, ← hreview] at hqueries hrejected hfound
  simp only [Progress.linkJournal, hmatches.asked, hmatches.diagnostics, hmatches.links,
    Link.complaint?_eq hclosed] at hqueries hrejected hfound
  rw [List.append_nil] at hrejected
  rw [Array.toList_append, Array.toList_filterMap] at hfound
  refine ⟨reading, hread, hdrawn, hmatches.draft.regular, hnames, htargets, hcount, ?_, ?_, ?_⟩
  · rw [htree, hrejected]
  · rw [hasked, hqueries]
  · rw [hdiagnostics, hfound]

end Dialogue
