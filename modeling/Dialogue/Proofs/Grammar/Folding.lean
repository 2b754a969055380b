import Mathlib.Data.List.Chain
import Dialogue.Proofs.Grammar.Wording

/-! Folding a shape up into a document. Levels say what hangs on what: the nodes right behind
a block that are further down are its body. -/
namespace Dialogue

def Content.isCommand : Content → Bool
  | block b _ => b.isCommand
  | leaf _ => false

theorem Content.exists_eq_command {content : Content} (h : content.isCommand = true) :
    ∃ text children, content = .block (.command text) children := by
  cases content with
  | leaf => contradiction
  | block b children =>
    cases b with
    | command text => exact ⟨text, children, rfl⟩
    | scope => contradiction
    | choice => contradiction

/-- How the nodes of a tree come one after another. Levels go down by one below a block, and
two commands in a row are not siblings. -/
structure Follows (node next : Nat × Content) : Prop where
  level_le : next.1 ≤ node.1 + 1
  isBlock : next.1 = node.1 + 1 → node.2.isBlock = true
  apart : node.2.isCommand = true → next.2.isCommand = true → node.1 ≠ next.1

/-- What stands behind a node is what hangs on it and what comes after it at its own level. -/
structure Splits (node : Nat × Content) (rest body behind : List (Nat × Content)) : Prop where
  rest_eq : rest = body ++ behind
  body_chain : body.IsChain Follows
  behind_chain : behind.IsChain Follows
  lt_of_mem : ∀ other ∈ body, node.1 + 1 ≤ other.1
  head_body : ∀ first, body.head? = some first → first.1 = node.1 + 1 ∧ Follows node first
  head_behind : ∀ next, behind.head? = some next → next.1 = node.1

theorem exists_splits {node : Nat × Content} {rest : List (Nat × Content)}
    (hchain : (node :: rest).IsChain Follows) (hlevel : ∀ other ∈ rest, node.1 ≤ other.1) :
    ∃ body behind, Splits node rest body behind := by
  obtain ⟨hfirst, hrest⟩ := List.isChain_cons.mp hchain
  have hsplit : rest = rest.takeWhile (node.1 < ·.1) ++ rest.dropWhile (node.1 < ·.1) :=
    List.takeWhile_append_dropWhile.symm
  have hdeep (other : Nat × Content) (hother : other ∈ rest.takeWhile (node.1 < ·.1)) :
      node.1 + 1 ≤ other.1 := by
    have hmem := List.mem_takeWhile_imp hother
    rwa [decide_eq_true_eq] at hmem
  have hboth := hrest
  rw [hsplit] at hboth
  refine ⟨_, _, hsplit, hboth.left_of_append, hboth.right_of_append, hdeep, ?_, ?_⟩
  · intro first hhead
    have hfollows : Follows node first := by
      apply hfirst
      rw [hsplit, List.head?_append, hhead]
      rfl
    have hle := hfollows.level_le
    have hge := hdeep first (List.mem_of_head? hhead)
    exact ⟨Nat.le_antisymm hle hge, hfollows⟩
  · intro next hhead
    have hge := hlevel next ((List.dropWhile_suffix _).subset (List.mem_of_head? hhead))
    have hstop := List.head?_dropWhile_not
      (fun other : Nat × Content => decide (node.1 < other.1)) rest
    rw [hhead] at hstop
    simp only [decide_eq_false_iff_not] at hstop
    omega

private theorem Content.exists_eq_scope {content : Content} (hscope : content.isScope = true)
    (hkey : content.key?.isSome = true) (h : content.WellFormed) :
    ∃ key, content = .block (.scope (some key)) [] ∧ Text.Clean key.toList ∧ key ≠ "" := by
  cases content with
  | leaf => contradiction
  | block b children =>
    cases b with
    | command => contradiction
    | choice => contradiction
    | scope key =>
      obtain ⟨hname, rfl⟩ := h
      obtain ⟨name, rfl⟩ := Option.isSome_iff_exists.mp hkey
      exact ⟨name, rfl, hname name rfl⟩

namespace Outline

variable {nodes : List (Nat × Content)} {level : Nat}

private theorem exists_head_of_startsWithCommand {outline : Outline}
    (h : outline.startsWithCommand = true) (level : Nat) :
    ∃ label, (outline.shape level).head? = some (level, label) ∧ label.isCommand = true := by
  cases outline with
  | done => contradiction
  | leaf => contradiction
  | block b body rest => exact ⟨_, rfl, h⟩

theorem exists_of_chain (hchain : nodes.IsChain Follows)
    (hhead : ∀ node, nodes.head? = some node → node.1 = level)
    (hnodes : ∀ node ∈ nodes, level ≤ node.1 ∧ node.2.isScope = false ∧ node.2.WellFormed) :
    ∃ outline : Outline, outline.WellFormed ∧ outline.shape level = nodes := by
  -- Neither the body of the first node nor what stands behind it is the tail of the list, but
  -- both are shorter.
  induction hlength : nodes.length using Nat.strongRecOn generalizing nodes level with
  | _ length ih =>
    cases nodes with
    | nil => exact ⟨.done, trivial, rfl⟩
    | cons node rest =>
      obtain ⟨_, hplain, hformed⟩ := hnodes node List.mem_cons_self
      obtain rfl := hhead node rfl
      have hmore (other : Nat × Content) (hother : other ∈ rest) :=
        hnodes other (List.mem_cons_of_mem node hother)
      obtain ⟨body, behind, hsplits⟩ :=
        exists_splits hchain fun other hother => (hmore other hother).1
      have hrest := hsplits.rest_eq
      have hsize := congrArg List.length hrest
      rw [List.length_append] at hsize
      rw [List.length_cons] at hlength
      obtain ⟨inner, hinner, hbody⟩ := ih body.length (by omega) hsplits.body_chain
        (fun first hfirst => (hsplits.head_body first hfirst).1)
        (fun other hother => ⟨hsplits.lt_of_mem other hother,
          (hmore other (hrest ▸ List.mem_append_left _ hother)).2⟩) rfl
      obtain ⟨outer, houter, hbehind⟩ := ih behind.length (by omega) hsplits.behind_chain
        hsplits.head_behind
        (fun other hother => hmore other (hrest ▸ List.mem_append_right _ hother)) rfl
      obtain ⟨level, label⟩ := node
      cases label with
      | leaf l =>
        have hnone : body = [] := by
          cases body with
          | nil => rfl
          | cons first _ =>
            obtain ⟨hlevel, hfollows⟩ := hsplits.head_body first rfl
            exact nomatch hfollows.isBlock hlevel
        rw [hnone, List.nil_append] at hrest
        exact ⟨.leaf l outer, ⟨hformed, houter⟩, by rw [shape, hbehind, hrest]⟩
      | block b children =>
        obtain ⟨hblock, rfl⟩ : b.WellFormed ∧ children = [] := by
          cases b with
          | scope => contradiction
          | command => exact hformed
          | choice => exact hformed
        refine ⟨.block b inner outer, ⟨hblock, hinner, houter, fun hcommand hdone => ?_⟩, ?_⟩
        · -- Two commands in a row would have been read as one.
          rw [hdone] at hbody
          rw [← hbody, shape, List.nil_append] at hrest
          refine Bool.eq_false_iff.mpr fun hstarts => ?_
          obtain ⟨label, hnext, hlabel⟩ := exists_head_of_startsWithCommand hstarts level
          rw [hbehind, ← hrest] at hnext
          exact ((List.isChain_cons.mp hchain).1 _ hnext).apart hcommand hlabel rfl
        · rw [shape, hbody, hbehind, hrest]

theorem exists_sections (hchain : nodes.IsChain Follows)
    (hhead : ∀ node, nodes.head? = some node → node.2.isScope = true)
    (hnodes : ∀ node ∈ nodes, 1 ≤ node.1 ∧ node.2.WellFormed ∧
      (node.2.isScope = true → node.2.key?.isSome = true) ∧
      (node.2.isScope = true ↔ node.1 = 1)) :
    ∃ sections : List (String × Outline), (ofSections sections).shape 1 = nodes ∧
      ∀ scope ∈ sections, Text.Clean scope.1.toList ∧ scope.1 ≠ "" ∧ scope.2.WellFormed := by
  induction hlength : nodes.length using Nat.strongRecOn generalizing nodes with
  | _ length ih =>
    cases nodes with
    | nil => exact ⟨[], rfl, nofun⟩
    | cons node rest =>
      have hscope := hhead node rfl
      obtain ⟨_, hformed, hkey, hlevel⟩ := hnodes node List.mem_cons_self
      have hmore (other : Nat × Content) (hother : other ∈ rest) :=
        hnodes other (List.mem_cons_of_mem node hother)
      have hone := hlevel.mp hscope
      obtain ⟨body, behind, hsplits⟩ :=
        exists_splits hchain fun other hother => hone ▸ (hmore other hother).1
      have hrest := hsplits.rest_eq
      have hsize := congrArg List.length hrest
      rw [List.length_append] at hsize
      rw [List.length_cons] at hlength
      have hbody (other : Nat × Content) (hother : other ∈ body) :=
        hmore other (hrest ▸ List.mem_append_left _ hother)
      have hbehind (other : Nat × Content) (hother : other ∈ behind) :=
        hmore other (hrest ▸ List.mem_append_right _ hother)
      obtain ⟨inner, hinner, hshape⟩ := exists_of_chain hsplits.body_chain
        (fun first hfirst => (hsplits.head_body first hfirst).1) fun other hother => by
          have hlt := hsplits.lt_of_mem other hother
          obtain ⟨_, hwell, _, hiff⟩ := hbody other hother
          refine ⟨hlt, Bool.eq_false_iff.mpr fun hother => ?_, hwell⟩
          have hother := hiff.mp hother
          omega
      obtain ⟨sections, hsections, hwell⟩ := ih behind.length (by omega) hsplits.behind_chain
        (fun next hnext => by
          have hnextLevel := (hsplits.head_behind next hnext).trans hone
          exact (hbehind next (List.mem_of_head? hnext)).2.2.2.mpr hnextLevel) hbehind rfl
      obtain ⟨level, label⟩ := node
      obtain rfl : level = 1 := hone
      obtain ⟨key, rfl, hname⟩ := Content.exists_eq_scope hscope (hkey hscope) hformed
      refine ⟨(key, inner) :: sections, ?_, fun scope hmem => ?_⟩
      · rw [ofSections, shape, hsections, hrest, ← hshape]
      · rcases List.mem_cons.mp hmem with rfl | hold
        · exact ⟨hname.1, hname.2, hinner⟩
        · exact hwell scope hold

end Outline

private theorem exists_first_scope (nodes : List (Nat × Content)) :
    ∃ before behind, nodes = before ++ behind ∧ (∀ node ∈ before, node.2.isScope = false) ∧
      ∀ node, behind.head? = some node → node.2.isScope = true := by
  refine ⟨nodes.takeWhile (! ·.2.isScope), nodes.dropWhile (! ·.2.isScope),
    List.takeWhile_append_dropWhile.symm, fun node hnode => ?_, fun node hhead => ?_⟩
  · simpa using List.mem_takeWhile_imp hnode
  · have hstop := List.head?_dropWhile_not (fun node : Nat × Content => ! node.2.isScope) nodes
    rw [hhead] at hstop
    simpa using hstop

/-- Nodes that stand on a root as they should make a document. -/
theorem Document.exists_of_chain {root : Nat × Content} {nodes : List (Nat × Content)}
    (hroot : root = (0, .block (.scope none) [])) (hchain : (root :: nodes).IsChain Follows)
    (hnodes : ∀ node ∈ nodes, 1 ≤ node.1 ∧ node.2.WellFormed ∧
      (node.2.isScope = true → node.1 = 1 ∧ node.2.key?.isSome = true))
    (hlast : nodes.Pairwise fun node later =>
      node.2.isScope = true → later.1 = 1 → later.2.isScope = true)
    (hnodup : (Sketch.keys nodes).Nodup) :
    ∃ document : Document, document.WellFormed ∧ document.shape = root :: nodes := by
  obtain ⟨hfirst, hrest⟩ := List.isChain_cons.mp hchain
  obtain ⟨before, behind, hsplit, hplain, hscope⟩ := exists_first_scope nodes
  rw [hsplit] at hfirst hrest hnodes hlast hnodup
  rw [Sketch.keys_append] at hnodup
  obtain ⟨opening, hopening, hbefore⟩ : ∃ opening : Outline, opening.WellFormed ∧
      opening.shape 1 = before := by
    refine Outline.exists_of_chain hrest.left_of_append (fun node hhead => ?_) fun node hnode => ?_
    · have hle := (hfirst node (by rw [List.head?_append, hhead]; rfl)).level_le
      have hge := (hnodes node (List.mem_append_left _ (List.mem_of_head? hhead))).1
      rw [hroot] at hle
      exact Nat.le_antisymm hle hge
    · obtain ⟨hpos, hwell, _⟩ := hnodes node (List.mem_append_left _ hnode)
      exact ⟨hpos, hplain node hnode, hwell⟩
  obtain ⟨sections, hsections, hformed⟩ :
      ∃ sections : List (String × Outline), (Outline.ofSections sections).shape 1 = behind ∧
        ∀ scope ∈ sections, Text.Clean scope.1.toList ∧ scope.1 ≠ "" ∧ scope.2.WellFormed := by
    refine Outline.exists_sections hrest.right_of_append hscope fun node hnode => ?_
    obtain ⟨hpos, hwell, hlevel⟩ := hnodes node (List.mem_append_right _ hnode)
    refine ⟨hpos, hwell, fun h => (hlevel h).2, fun h => (hlevel h).1, fun hone => ?_⟩
    obtain ⟨_, hpairs, _⟩ := List.pairwise_append.mp hlast
    cases behind with
    | nil => contradiction
    | cons first later =>
      rcases List.mem_cons.mp hnode with rfl | hmem
      · exact hscope node rfl
      · exact (List.pairwise_cons.mp hpairs).1 node hmem (hscope first rfl) hone
  refine ⟨⟨opening, sections⟩, ⟨hopening, hformed, ?_⟩, ?_⟩
  · rw [← hsections, Outline.keys_shape_ofSections fun scope hmem => (hformed scope hmem).2.2]
      at hnodup
    exact (List.nodup_append.mp hnodup).2.1
  · rw [Document.shape, Document.outline, Outline.shape_append, hbefore, hsections, hroot, hsplit]

end Dialogue
