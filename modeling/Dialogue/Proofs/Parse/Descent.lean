import Dialogue.Proofs.Parse.Trial
import Dialogue.Proofs.Tree.Within

/-! The review as a descent. The children of a node are taken from the last to the first; each
is reviewed below before it is checked itself, and the list of the children is written anew once
some of them are rejected. This puts the same queries as a review against the order of the walk,
and cuts the same nodes off. -/
namespace Dialogue

def Tree.setChildren (tree : Tree) (id : NodeId) (children : List NodeId) : Tree :=
  tree.modify id (Node.mapChildren fun _ => children)

/-- How far a descent has come with the children of a node. -/
structure Descent where
  tree : Tree
  journal : Journal
  kept : List NodeId

namespace Descent

def check (checker : Checker) (state : Descent) (child : NodeId) : Descent :=
  let review := Review.check checker state.tree { journal := state.journal } child
  { state with
    journal := review.journal
    kept := if review.rejected = [] then child :: state.kept else state.kept }

def visit (checker : Checker) (descend : NodeId → Tree × Journal → Tree × Journal)
    (child : NodeId) (state : Descent) : Descent :=
  let (tree, journal) := descend child (state.tree, state.journal)
  check checker ⟨tree, journal, state.kept⟩ child

/-- Reviews what is below a node, down to a number of levels. -/
def run (checker : Checker) : Nat → NodeId → Tree × Journal → Tree × Journal
  | 0, _, state => state
  | levels + 1, id, (tree, journal) =>
    let children := tree.children id
    let state := children.foldr (visit checker (run checker levels)) ⟨tree, journal, []⟩
    if state.kept.length = children.length then (state.tree, state.journal)
    else (state.tree.setChildren id state.kept, state.journal)

end Descent

namespace Review

/-- A check depends on the mark of a node alone. -/
theorem check_congr (checker : Checker) {tree other : Tree} {id : NodeId}
    (h : tree.mark? id = other.mark? id) (review : Review) :
    review.check checker tree id = review.check checker other id := by
  have hsame : tree.command? id = other.command? id := by
    rw [Tree.command?, Tree.command?, Tree.label?, Tree.label?, h]
  cases hcommand : tree.command? id with
  | none =>
    rw [hcommand] at hsame
    rw [check_of_not_command hcommand, check_of_not_command hsame.symm]
  | some text =>
    rw [hcommand] at hsame
    obtain ⟨span, children, hnode⟩ := Tree.exists_node_of_command? hcommand
    obtain ⟨span', children', hother⟩ := Tree.exists_node_of_command? hsame.symm
    rw [Tree.mark?, Tree.mark?, hnode, hother] at h
    obtain ⟨hline : span.line = span'.line, hcolumn : span.column = span'.column, _⟩ :=
      Mark.mk.inj (Option.some.inj h)
    simp only [check, hnode, hother, hline, hcolumn]

theorem check_eq (checker : Checker) (tree : Tree) (review : Review) (id : NodeId) :
    review.check checker tree id =
      { rejected := (check checker tree { journal := review.journal } id).rejected ++
          review.rejected
        journal := (check checker tree { journal := review.journal } id).journal } := by
  unfold check
  split
  · split <;> simp_all [Journal.ask]
  · rfl

private theorem rejected_check_eq (checker : Checker) (tree : Tree) (journal : Journal)
    (id : NodeId) :
    (check checker tree { journal } id).rejected = [] ∨
      (check checker tree { journal } id).rejected = [id] := by
  unfold check
  split
  · split <;> simp
  · exact .inl rfl

end Review

namespace Tree

variable {level : Nat → Nat} {whole tree : Tree} {rejected : List NodeId} {id bound : Nat}

theorem headD_le_of_mem {ids : List Nat} (h : ids.Pairwise (· < ·)) (hid : id ∈ ids)
    (bound : Nat) : ids.headD bound ≤ id := by
  cases ids with
  | nil => contradiction
  | cons first rest =>
    rcases List.mem_cons.mp hid with rfl | hrest
    · exact Nat.le_refl _
    · exact Nat.le_of_lt ((List.pairwise_cons.mp h).1 id hrest)

/-- A part of a tree in pre-order: what is below a node, up to a bound. -/
structure Spans (whole : Tree) (level : Nat → Nat) (id bound : Nat) : Prop where
  lt : id < bound
  le_size : bound ≤ whole.size
  isBelow : ∀ node, id < node → node < bound → IsBelow level id node
  lt_bound : ∀ node < whole.size, IsBelow level id node → node < bound

/-- What is below a child goes up to the next child, or as far as what is below the parent. -/
theorem Spans.child (h : whole.Spans level id bound) (hshaped : whole.Shaped level)
    {before rest : List Nat} {child : Nat} (hsplit : whole.children id = before ++ child :: rest) :
    whole.Spans level child (rest.headD bound) := by
  have hsorted := hshaped.sorted id
  rw [hsplit] at hsorted
  obtain ⟨_, htail, hbefore⟩ := List.pairwise_append.mp hsorted
  have hedge (other : Nat) (hother : other ∈ whole.children id) :
      other < whole.size ∧ IsParent level id other := (hshaped.mem_children_iff id other).mp hother
  obtain ⟨hin, hchild⟩ := hedge child (hsplit ▸ List.mem_append_right before List.mem_cons_self)
  have hlevel := hchild.level_eq
  have hbound := h.lt_bound child hin hchild.isBelow
  have hnext : child < rest.headD bound ∧ rest.headD bound ≤ bound ∧
      ∀ node < whole.size, IsBelow level child node → node < rest.headD bound := by
    cases rest with
    | nil =>
      refine ⟨hbound, Nat.le_refl _, fun node hnode hbelow => ?_⟩
      exact h.lt_bound node hnode (hchild.isBelow.trans hbelow)
    | cons next rest =>
      have hlt := (List.pairwise_cons.mp htail).1 next List.mem_cons_self
      obtain ⟨hnode, hparent⟩ := hedge next
        (hsplit ▸ List.mem_append_right before (List.mem_cons_of_mem child List.mem_cons_self))
      refine ⟨hlt, Nat.le_of_lt (h.lt_bound next hnode hparent.isBelow),
        fun node hnode hbelow => Nat.lt_of_not_le fun hle => ?_⟩
      have hdeeper := hbelow.level_lt next hlt hle
      rw [hlevel, hparent.level_eq] at hdeeper
      exact Nat.lt_irrefl _ hdeeper
  obtain ⟨hlt, hle, hlast⟩ := hnext
  refine ⟨hlt, Nat.le_trans hle h.le_size, fun node hlo hhi => ?_, hlast⟩
  have hnode := Nat.lt_of_lt_of_le hhi hle
  obtain ⟨first, hfirst, hwithin⟩ :=
    (h.isBelow node (Nat.lt_trans hchild.lt hlo) hnode).exists_child hshaped.level_le
      (Nat.lt_of_lt_of_le hnode h.le_size)
  have hreach : first ≤ node := by
    rcases hwithin with rfl | hbelow
    · exact Nat.le_refl _
    · exact Nat.le_of_lt hbelow.lt
  have hmem : first ∈ before ++ child :: rest := by
    rw [← hsplit, hshaped.mem_children_iff]
    exact ⟨Nat.lt_of_le_of_lt hreach (Nat.lt_of_lt_of_le hnode h.le_size), hfirst⟩
  rcases List.mem_append.mp hmem with hearly | hhere
  · -- An earlier child has nothing below it that is behind this one.
    have hless := hbefore first hearly child List.mem_cons_self
    rcases hwithin with rfl | hbelow
    · exact absurd hless (Nat.lt_asymm hlo)
    · have hdeeper := hbelow.level_lt child hless (Nat.le_of_lt hlo)
      rw [hlevel, hfirst.level_eq] at hdeeper
      exact absurd hdeeper (Nat.lt_irrefl _)
  · rcases List.mem_cons.mp hhere with rfl | hlate
    · exact hwithin.resolve_left (Nat.ne_of_lt hlo)
    · have hfar := headD_le_of_mem htail.of_cons hlate bound
      exact absurd (Nat.le_trans hfar hreach) (Nat.not_le.mpr hhi)

theorem Spans.lt_headD (h : whole.Spans level id bound) (hshaped : whole.Shaped level) :
    id < (whole.children id).headD bound ∧
      ∀ node, id < node → (whole.children id).headD bound ≤ node := by
  have hedge (child : Nat) (hchild : child ∈ whole.children id) : IsParent level id child :=
    ((hshaped.mem_children_iff id child).mp hchild).2
  have hbound : id < (whole.children id).headD bound ∧
      (whole.children id).headD bound ≤ bound := by
    cases hchildren : whole.children id with
    | nil => exact ⟨h.lt, Nat.le_refl _⟩
    | cons first rest =>
      have hmem : first ∈ whole.children id := hchildren ▸ List.mem_cons_self
      have hin := ((hshaped.mem_children_iff id first).mp hmem).1
      exact ⟨(hedge first hmem).lt, Nat.le_of_lt (h.lt_bound first hin (hedge first hmem).isBelow)⟩
  refine ⟨hbound.1, fun node hlo => Nat.le_of_not_lt fun hhi => ?_⟩
  have hnode := Nat.lt_of_lt_of_le hhi hbound.2
  obtain ⟨first, hparent, hwithin⟩ := (h.isBelow node hlo hnode).exists_child hshaped.level_le
    (Nat.lt_of_lt_of_le hnode h.le_size)
  have hreach : first ≤ node := by
    rcases hwithin with rfl | hbelow
    · exact Nat.le_refl _
    · exact Nat.le_of_lt hbelow.lt
  have hin : first < whole.size :=
    Nat.lt_of_le_of_lt hreach (Nat.lt_of_lt_of_le hnode h.le_size)
  have hmem := (hshaped.mem_children_iff id first).mpr ⟨hin, hparent⟩
  exact Nat.not_lt.mpr (headD_le_of_mem (hshaped.sorted id) hmem bound)
    (Nat.lt_of_le_of_lt hreach hhi)

/-- A tree of which the nodes from a bound on have lost the children that were rejected. -/
structure Trimmed (whole tree : Tree) (rejected : List NodeId) (bound : Nat) : Prop where
  names : tree.names = whole.names
  before : ∀ id < bound, tree.get? id = whole.get? id
  behind : ∀ id, bound ≤ id → tree.get? id = (whole.detach rejected).get? id
  le_rejected : ∀ id ∈ rejected, bound ≤ id

theorem get?_detach_congr {ids others : List NodeId} {id : NodeId}
    (h : ∀ child ∈ whole.children id, child ∈ ids ↔ child ∈ others) :
    (whole.detach ids).get? id = (whole.detach others).get? id := by
  rw [get?_detach, get?_detach]
  rw [children_eq] at h
  cases hnode : whole.get? id with
  | none => rfl
  | some node =>
    rw [hnode] at h
    obtain ⟨span, content⟩ := node
    cases content with
    | leaf => rfl
    | block block children =>
      have hfilter : children.filter (· ∉ ids) = children.filter (· ∉ others) :=
        List.filter_congr fun child hchild => decide_eq_decide.mpr (not_congr (h child hchild))
      exact congrArg (fun kept => some (⟨span, .block block kept⟩ : Node)) hfilter

theorem get?_setChildren_filter (h : tree.get? id = whole.get? id) :
    (tree.setChildren id ((whole.children id).filter (· ∉ rejected))).get? id =
      (whole.detach rejected).get? id := by
  rw [setChildren, get?_modify, if_pos rfl, h, get?_detach, children_eq]
  cases whole.get? id with
  | none => rfl
  | some node =>
    obtain ⟨span, content⟩ := node
    cases content <;> rfl

namespace Trimmed

private theorem start (whole : Tree) : whole.Trimmed whole [] whole.size :=
  ⟨rfl, fun _ _ => rfl, fun _ _ => rfl, nofun⟩

private theorem mark? (h : whole.Trimmed tree rejected bound) (id : Nat) :
    tree.mark? id = whole.mark? id := by
  rcases Nat.lt_or_ge id bound with hlt | hge
  · rw [Tree.mark?, h.before id hlt, Tree.mark?]
  · rw [Tree.mark?, h.behind id hge, ← Tree.mark?, mark?_detach]

theorem cons (h : whole.Trimmed tree rejected bound) (hshaped : whole.Shaped level) :
    whole.Trimmed tree (bound :: rejected) bound := by
  refine ⟨h.names, h.before, fun id hid => ?_, fun id hid => ?_⟩
  · rw [h.behind id hid]
    refine get?_detach_congr fun child hchild => ?_
    have hlt := ((hshaped.mem_children_iff id child).mp hchild).2.lt
    rw [List.mem_cons, or_iff_right (Nat.ne_of_gt (Nat.lt_of_le_of_lt hid hlt))]
  · rcases List.mem_cons.mp hid with rfl | hold
    · exact Nat.le_refl _
    · exact h.le_rejected id hold

theorem eq_detach (h : whole.Trimmed tree rejected root) : tree = whole.detach rejected := by
  have hnodes : tree.nodes = (whole.detach rejected).nodes :=
    Array.ext_getElem? fun id => h.behind id (Nat.zero_le id)
  have hnames := h.names.trans (names_detach whole rejected).symm
  show (⟨tree.nodes, tree.names⟩ : Tree) = _
  rw [hnodes, hnames]

theorem finish (h : whole.Trimmed tree rejected ((whole.children id).headD bound))
    (hshaped : whole.Shaped level) (hspan : whole.Spans level id bound) :
    whole.Trimmed
      (if ((whole.children id).filter (· ∉ rejected)).length = (whole.children id).length then tree
        else tree.setChildren id ((whole.children id).filter (· ∉ rejected))) rejected id := by
  have hsame := h.before id (hspan.lt_headD hshaped).1
  have hclose (last : Tree) (hnames : last.names = tree.names)
      (hother : ∀ other ≠ id, last.get? other = tree.get? other)
      (hid : last.get? id = (whole.detach rejected).get? id) :
      whole.Trimmed last rejected id := by
    obtain ⟨hlt, hle⟩ := hspan.lt_headD hshaped
    refine ⟨hnames.trans h.names, fun other hbefore => ?_, fun other hbehind => ?_,
      fun other hmem => Nat.le_of_lt (Nat.lt_of_lt_of_le hlt (h.le_rejected other hmem))⟩
    · rw [hother other (Nat.ne_of_lt hbefore)]
      exact h.before other (Nat.lt_trans hbefore hlt)
    · rcases Nat.lt_or_eq_of_le hbehind with hmore | rfl
      · rw [hother other (Nat.ne_of_gt hmore)]
        exact h.behind other (hle other hmore)
      · exact hid
  split
  next hall =>
    refine hclose tree rfl (fun _ _ => rfl) ?_
    rw [hsame, ← detach_nil whole]
    refine (get?_detach_congr fun child hchild => ?_).symm
    have hkept := List.length_filter_eq_length_iff.mp hall child hchild
    exact iff_of_false (of_decide_eq_true hkept) List.not_mem_nil
  next =>
    refine hclose _ (names_modify ..) (fun other hne => ?_) (get?_setChildren_filter hsame)
    rw [setChildren, get?_modify, if_neg (Ne.symm hne)]

end Trimmed
end Tree

namespace Descent

variable {checker : Checker} {level : Nat → Nat} {whole tree : Tree} {review : Review}
  {id levels bound : Nat}

def backwards (checker : Checker) (whole : Tree) (ids : List NodeId) (review : Review) : Review :=
  ids.reverse.foldl (Review.check checker whole) review

private theorem backwards_append (first last : List NodeId) :
    backwards checker whole (first ++ last) review =
      backwards checker whole first (backwards checker whole last review) := by
  rw [backwards, List.reverse_append, List.foldl_append]
  rfl

private theorem backwards_cons (id : NodeId) (rest : List NodeId) :
    backwards checker whole (id :: rest) review =
      (backwards checker whole rest review).check checker whole id := by
  rw [backwards, List.reverse_cons, List.foldl_append]
  rfl

theorem mem_rejected_backwards (ids : List NodeId) (id : NodeId) :
    (id ∈ review.rejected → id ∈ (backwards checker whole ids review).rejected) ∧
    (id ∈ (backwards checker whole ids review).rejected → id ∈ review.rejected ∨ id ∈ ids) := by
  obtain ⟨hkept, hnew⟩ :=
    Review.mem_rejected_foldl_check checker whole review ids.reverse id
  exact ⟨hkept, fun h => (hnew h).imp_right fun hid => List.mem_reverse.mp hid.1⟩

/-- A tree and a journal that agree with a review, down to a bound. -/
structure Agrees (whole : Tree) (review : Review) (bound : Nat) (state : Tree × Journal) :
    Prop where
  trimmed : whole.Trimmed state.1 review.rejected bound
  journal : state.2 = review.journal

theorem agrees_check (hshaped : whole.Shaped level) (kept : List NodeId)
    (h : Agrees whole review id (tree, review.journal)) (hfresh : id ∉ review.rejected) :
    Agrees whole (review.check checker whole id) id
        ((check checker ⟨tree, review.journal, kept⟩ id).tree,
          (check checker ⟨tree, review.journal, kept⟩ id).journal) ∧
      (check checker ⟨tree, review.journal, kept⟩ id).kept =
        if id ∈ (review.check checker whole id).rejected then kept else id :: kept := by
  have hcheck := Review.check_congr checker (h.trimmed.mark? id) { journal := review.journal }
  rw [Review.check_eq]
  simp only [check, hcheck]
  rcases Review.rejected_check_eq checker whole review.journal id with hnone | hone
  · rw [hnone, if_pos rfl, List.nil_append, if_neg hfresh]
    exact ⟨⟨h.trimmed, rfl⟩, rfl⟩
  · rw [hone, if_neg (List.cons_ne_nil _ _), List.singleton_append,
      if_pos List.mem_cons_self]
    exact ⟨⟨h.trimmed.cons hshaped, rfl⟩, rfl⟩

def Follows (checker : Checker) (whole : Tree) (level : Nat → Nat) (levels id : Nat) : Prop :=
  ∀ review bound state, whole.Spans level id bound → Agrees whole review bound state →
    Agrees whole (backwards checker whole (whole.below levels id) review) id
      (run checker levels id state)

/-- What a descent through the last children of a node comes to. -/
theorem agrees_foldr_visit (hshaped : whole.Shaped level)
    (hbelow : ∀ child ∈ whole.children id, Follows checker whole level levels child)
    (hlevels : ∀ child ∈ whole.children id, whole.size ≤ levels + child)
    (hspan : whole.Spans level id bound) (h : Agrees whole review bound (tree, review.journal))
    (rest before : List Nat) (hsplit : whole.children id = before ++ rest) :
    Agrees whole
        (backwards checker whole
          (rest.flatMap fun child => child :: whole.below levels child) review)
        (rest.headD bound)
        ((rest.foldr (visit checker (run checker levels)) ⟨tree, review.journal, []⟩).tree,
          (rest.foldr (visit checker (run checker levels)) ⟨tree, review.journal, []⟩).journal) ∧
      (rest.foldr (visit checker (run checker levels)) ⟨tree, review.journal, []⟩).kept =
        rest.filter (· ∉ (backwards checker whole
          (rest.flatMap fun child => child :: whole.below levels child) review).rejected) := by
  induction rest generalizing before with
  | nil => exact ⟨h, rfl⟩
  | cons child rest ih =>
    -- The fold is from the right, so the later children have been visited already.
    obtain ⟨hagrees, hkept⟩ := ih (before ++ [child]) (by rw [hsplit, List.append_assoc]; rfl)
    have hmem : child ∈ whole.children id := hsplit ▸ List.mem_append_right before List.mem_cons_self
    have hchild := hspan.child hshaped hsplit
    rw [List.foldr_cons, List.flatMap_cons, List.cons_append, backwards_cons, backwards_append]
    generalize rest.foldr (visit checker (run checker levels)) ⟨tree, review.journal, []⟩ = state
      at hagrees hkept
    generalize backwards checker whole
      (rest.flatMap fun child => child :: whole.below levels child) review = later
      at hagrees hkept
    have hdeep := hbelow child hmem later _ _ hchild hagrees
    have hinside (other : Nat)
        (hother : other ∈ (backwards checker whole (whole.below levels child) later).rejected) :
        other ∈ later.rejected ∨ IsBelow level child other := by
      refine ((mem_rejected_backwards _ other).2 hother).imp_right fun hin => ?_
      exact ((hshaped.mem_below_iff (hlevels child hmem)).mp hin).2
    have hfresh :
        child ∉ (backwards checker whole (whole.below levels child) later).rejected := by
      intro hin
      rcases hinside child hin with hold | hbelow
      · exact Nat.not_lt.mpr (hagrees.trimmed.le_rejected child hold) hchild.lt
      · exact Nat.lt_irrefl child hbelow.lt
    have hold (other : Nat) (hother : other ∈ later.rejected) :
        other ∈ (backwards checker whole (whole.below levels child) later).rejected :=
      (mem_rejected_backwards _ other).1 hother
    unfold visit
    generalize run checker levels child (state.tree, state.journal) = reached at hdeep
    generalize backwards checker whole (whole.below levels child) later = deeper
      at hdeep hinside hfresh hold
    obtain ⟨tree', journal⟩ := reached
    obtain rfl : journal = deeper.journal := hdeep.journal
    obtain ⟨hlast, hlist⟩ := agrees_check hshaped state.kept hdeep hfresh
    refine ⟨hlast, hlist.trans ?_⟩
    -- What is rejected below the child or is the child itself is not among the later children.
    have hrest : rest.filter (· ∉ (deeper.check checker whole child).rejected) = state.kept := by
      rw [hkept]
      refine List.filter_congr fun other hother => decide_eq_decide.mpr (not_congr ?_)
      have hin := List.mem_append_right before (List.mem_cons_of_mem child hother)
      rw [← hsplit, hshaped.mem_children_iff] at hin
      have hlater : rest.headD bound ≤ other := by
        have hsorted := hshaped.sorted id
        rw [hsplit] at hsorted
        exact Tree.headD_le_of_mem (List.pairwise_append.mp hsorted).2.1.of_cons hother bound
      obtain ⟨hstays, hcomes⟩ :=
        Review.mem_rejected_check checker whole deeper child other
      refine ⟨fun hrejected => ?_, fun hrejected => hstays (hold other hrejected)⟩
      rcases hcomes hrejected with hdeeper | ⟨rfl, _⟩
      · refine (hinside other hdeeper).resolve_right fun hbelow => ?_
        exact Nat.not_lt.mpr hlater (hchild.lt_bound other hin.1 hbelow)
      · exact absurd hchild.lt (Nat.not_lt.mpr hlater)
    rw [List.filter_cons, hrest]
    by_cases hcut : child ∈ (deeper.check checker whole child).rejected
    · rw [if_pos hcut, if_neg (by simpa using hcut)]
    · rw [if_neg hcut, if_pos (by simpa using hcut)]

/-- A descent agrees with the review of what is below a node. -/
theorem follows (hshaped : whole.Shaped level) (levels id : Nat)
    (hlevels : whole.size ≤ levels + id) : Follows checker whole level levels id := by
  induction levels generalizing id with
  | zero =>
    intro review bound state hspan
    have hlt := hspan.lt
    have hle := hspan.le_size
    omega
  | succ levels ih =>
    rintro review bound ⟨tree, journal⟩ hspan h
    have hmore (child : Nat) (hchild : child ∈ whole.children id) :
        whole.size ≤ levels + child := by
      have hlt := ((hshaped.mem_children_iff id child).mp hchild).2.lt
      omega
    obtain rfl : journal = review.journal := h.journal
    obtain ⟨hagrees, hkept⟩ := agrees_foldr_visit hshaped (fun child hchild => ih child
      (hmore child hchild)) hmore hspan h (whole.children id) [] rfl
    have hsame : tree.children id = whole.children id := by
      rw [Tree.children_eq, h.trimmed.before id hspan.lt, ← Tree.children_eq]
    have hlast := hagrees.trimmed.finish hshaped hspan
    rw [← hkept] at hlast
    rw [Tree.below]
    unfold run
    simp only [hsame]
    split
    next hall =>
      rw [if_pos hall] at hlast
      exact ⟨hlast, hagrees.journal⟩
    next hsome =>
      rw [if_neg hsome] at hlast
      exact ⟨hlast, hagrees.journal⟩

end Descent

/-- A descent from the root comes to what the review against the order of the walk comes to. -/
theorem Review.ofTree_eq_run {whole : Tree} {level : Nat → Nat} (hshaped : whole.Shaped level)
    (checker : Checker) (journal : Journal) :
    Descent.run checker whole.size Tree.root (whole, journal) =
      (whole.detach (ofTree checker whole journal).rejected,
        (ofTree checker whole journal).journal) := by
  have hspan : whole.Spans level Tree.root whole.size :=
    ⟨hshaped.size_pos, Nat.le_refl _, fun node hpos hlt => hshaped.isBelow_root hpos hlt,
      fun node hnode _ => hnode⟩
  have hfollows : Descent.Follows checker whole level whole.size Tree.root :=
    Descent.follows hshaped whole.size Tree.root (Nat.le_refl _)
  obtain ⟨htrimmed, hjournal⟩ :=
    hfollows { journal } whole.size (whole, journal) hspan ⟨.start whole, rfl⟩
  exact Prod.ext htrimmed.eq_detach hjournal

end Dialogue
