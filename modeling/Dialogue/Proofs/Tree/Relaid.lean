import Dialogue.Proofs.Tree.Mark

/-! Trees laid out anew: the same nodes, on other lines and in other columns. A function tells
where a line of the first tree is found in the second one. Blocks that are open have no end yet,
and the line of the root is no line of the script. -/
namespace Dialogue

structure Node.Relaid (renumber : Nat → Nat) (opened : List NodeId) (id : NodeId)
    (node other : Node) : Prop where
  content : other.content = node.content
  line : other.span.line = if id = Tree.root then node.span.line else renumber node.span.line
  stop : ∀ block children, node.content = .block block children → id ∉ opened →
    other.span.stop = renumber node.span.stop

structure Tree.Relaid (renumber : Nat → Nat) (opened : List NodeId) (tree other : Tree) :
    Prop where
  size : other.size = tree.size
  size_pos : 0 < tree.size
  names : other.names = tree.names
  named : ∀ entry ∈ tree.names, entry.2 ≠ Tree.root ∧ entry.2 < tree.size
  node : ∀ id node, tree.get? id = some node →
    ∃ image, other.get? id = some image ∧ node.Relaid renumber opened id image

structure Draft.Relaid (renumber : Nat → Nat) (draft other : Draft) : Prop where
  opened : other.opened = draft.opened
  tree : draft.tree.Relaid renumber draft.opened other.tree

variable {renumber : Nat → Nat} {opened next : List NodeId} {id : NodeId} {line depth : Nat}

namespace Node.Relaid

variable {node other : Node}

theorem mono (h : node.Relaid renumber opened id other) (hkept : id ∈ opened → id ∈ next) :
    node.Relaid renumber next id other :=
  ⟨h.content, h.line, fun block children hblock hid =>
    h.stop block children hblock fun hopen => hid (hkept hopen)⟩

theorem mapChildren (h : node.Relaid renumber opened id other)
    (f : List NodeId → List NodeId) :
    (node.mapChildren f).Relaid renumber opened id (other.mapChildren f) := by
  refine ⟨congrArg (Content.mapChildren f) h.content, h.line, fun block children hblock hid => ?_⟩
  obtain ⟨span, label⟩ := node
  cases label with
  | leaf => contradiction
  | block block children => exact h.stop block children rfl hid

theorem stoppedAt (h : node.Relaid renumber opened id other) (line : Nat) :
    (node.stoppedAt line).Relaid renumber next id (other.stoppedAt (renumber line)) :=
  ⟨h.content, h.line, fun _ _ _ _ => rfl⟩

theorem extend (h : node.Relaid renumber opened id other) (line count : Nat) (text : String) :
    (node.extend line text).Relaid renumber (id :: opened) id (other.extend count text) := by
  obtain ⟨span, label⟩ := node
  obtain ⟨image, same⟩ := other
  obtain rfl : same = label := h.content
  have hkept : Relaid renumber (id :: opened) id ⟨span, same⟩ ⟨image, same⟩ :=
    h.mono fun hid => List.mem_cons_of_mem id hid
  cases same with
  | leaf => exact hkept
  | block block children =>
    cases block with
    | command text => exact ⟨rfl, h.line, fun _ _ _ hid => absurd List.mem_cons_self hid⟩
    | scope => exact hkept
    | choice => exact hkept

end Node.Relaid

namespace Tree.Relaid

variable {tree other : Tree}

theorem map_content (h : tree.Relaid renumber opened other) (id : NodeId) :
    (other.get? id).map Node.content = (tree.get? id).map Node.content := by
  cases hnode : tree.get? id with
  | some node =>
    obtain ⟨image, himage, hrelaid⟩ := h.node id node hnode
    rw [himage]
    exact congrArg some hrelaid.content
  | none =>
    have hsize : other.size ≤ id := h.size ▸ Array.getElem?_eq_none_iff.mp hnode
    rw [get?, Array.getElem?_eq_none hsize]

theorem label? (h : tree.Relaid renumber opened other) : other.label? = tree.label? := by
  funext id
  have hbare (tree : Tree) :
      tree.label? id = ((tree.get? id).map Node.content).map Content.bare := by
    rw [label?_eq, Option.map_map]
    rfl
  rw [hbare, hbare, h.map_content]

private theorem isScope (h : tree.Relaid renumber opened other) (id : NodeId) :
    other.isScope id = tree.isScope id := by
  rw [isScope_eq, isScope_eq, h.label?]

theorem children (h : tree.Relaid renumber opened other) (id : NodeId) :
    other.children id = tree.children id := by
  have hmap (tree : Tree) :
      tree.children id = (((tree.get? id).map Node.content).map Content.children).getD [] := by
    rw [children_eq, Option.map_map]
    rfl
  rw [hmap, hmap, h.map_content]

theorem find? (h : tree.Relaid renumber opened other) (key : String) :
    other.find? key = tree.find? key := by
  rw [Tree.find?, Tree.find?, h.names]

theorem walk (h : tree.Relaid renumber opened other) : other.walk = tree.walk := by
  have hbelow (levels : Nat) (id : NodeId) : other.below levels id = tree.below levels id := by
    induction levels generalizing id with
    | zero => rfl
    | succ levels ih =>
      rw [below, below, h.children]
      simp only [ih]
  rw [Tree.walk, Tree.walk, h.size, hbelow]

theorem lineOf (h : tree.Relaid renumber opened other) (hid : id < tree.size)
    (hne : id ≠ root) : other.lineOf id = renumber (tree.lineOf id) := by
  have hnode : tree.get? id = some tree.nodes[id] := Array.getElem?_eq_getElem hid
  obtain ⟨image, himage, hrelaid⟩ := h.node id _ hnode
  rw [Tree.lineOf, Tree.lineOf, hnode, himage]
  exact hrelaid.line.trans (if_neg hne)

theorem modify {f g : Node → Node} (h : tree.Relaid renumber opened other)
    (hid : ∀ node image, node.Relaid renumber opened id image →
      (f node).Relaid renumber next id (g image))
    (hkept : ∀ inner ∈ opened, inner ≠ id → inner ∈ next) :
    (tree.modify id f).Relaid renumber next (other.modify id g) := by
  refine ⟨?_, ?_, h.names, ?_, fun inner node hnode => ?_⟩
  · rw [size_modify, size_modify, h.size]
  · rw [size_modify]
    exact h.size_pos
  · rw [size_modify]
    exact h.named
  · rw [get?_modify] at hnode ⊢
    split at hnode
    next heq =>
      obtain ⟨old, hold, rfl⟩ := Option.map_eq_some_iff.mp hnode
      obtain ⟨image, himage, hrelaid⟩ := h.node inner old hold
      rw [if_pos heq, himage]
      exact ⟨_, rfl, heq ▸ hid old image (heq ▸ hrelaid)⟩
    next hne =>
      obtain ⟨image, himage, hrelaid⟩ := h.node inner node hnode
      rw [if_neg hne]
      exact ⟨image, himage, hrelaid.mono fun hin => hkept inner hin (Ne.symm hne)⟩

theorem push {node image : Node} (h : tree.Relaid renumber opened other) (parent : NodeId)
    (hnew : node.Relaid renumber next tree.size image) (hkept : ∀ inner ∈ opened, inner ∈ next) :
    (tree.push parent node).Relaid renumber next (other.push parent image) := by
  refine ⟨?_, ?_, h.names, fun entry hentry => ?_, fun inner found hfound => ?_⟩
  · rw [size_push, size_push, h.size]
  · rw [size_push]
    exact Nat.succ_pos _
  · rw [size_push]
    exact (h.named entry hentry).imp_right Nat.lt_succ_of_lt
  · rw [get?_push] at hfound ⊢
    obtain ⟨old, hold, rfl⟩ := Option.map_eq_some_iff.mp hfound
    obtain ⟨second, hsecond, hrelaid⟩ : ∃ second,
        (if inner = other.size then some image else other.get? inner) = some second ∧
          old.Relaid renumber next inner second := by
      rw [h.size]
      split at hold
      next heq =>
        obtain rfl := Option.some.inj hold
        exact ⟨image, if_pos heq, heq ▸ hnew⟩
      next hne =>
        obtain ⟨second, hsecond, hrelaid⟩ := h.node inner old hold
        exact ⟨second, (if_neg hne).trans hsecond, hrelaid.mono (hkept inner)⟩
    rw [hsecond, h.size]
    refine ⟨_, rfl, ?_⟩
    split
    · exact hrelaid.mapChildren _
    · exact hrelaid

theorem declare (h : tree.Relaid renumber opened other) (key : String)
    (hid : id ≠ root ∧ id < tree.size) :
    (tree.declare key id).Relaid renumber opened (other.declare key id) := by
  refine ⟨h.size, h.size_pos, congrArg (· ++ [(key, id)]) h.names, fun entry hentry => ?_, h.node⟩
  rcases List.mem_append.mp hentry with hold | hnew
  · exact h.named entry hold
  · rw [List.mem_singleton.mp hnew]
    exact hid

theorem close (h : tree.Relaid renumber (id :: opened) other) (line : Nat) :
    (tree.close line id).Relaid renumber opened (other.close (renumber line) id) :=
  h.modify (fun _ _ hnode => hnode.stoppedAt line) fun _ hin hne =>
    (List.mem_cons.mp hin).resolve_left hne

theorem detach (h : tree.Relaid renumber opened other) (ids : List NodeId) :
    (tree.detach ids).Relaid renumber opened (other.detach ids) := by
  refine ⟨?_, ?_, ?_, ?_, fun id node hnode => ?_⟩
  · rw [size_detach, size_detach, h.size]
  · rw [size_detach]
    exact h.size_pos
  · rw [names_detach, names_detach, h.names]
  · rw [names_detach, size_detach]
    exact h.named
  · rw [get?_detach] at hnode ⊢
    obtain ⟨old, hold, rfl⟩ := Option.map_eq_some_iff.mp hnode
    obtain ⟨image, himage, hrelaid⟩ := h.node id old hold
    rw [himage]
    exact ⟨_, rfl, hrelaid.mapChildren _⟩

end Tree.Relaid

namespace Draft.Relaid

variable {draft other : Draft}

theorem empty : Draft.empty.Relaid renumber Draft.empty := by
  refine ⟨rfl, rfl, Nat.one_pos, rfl, nofun, fun id node hnode => ⟨node, hnode, rfl, ?_, ?_⟩⟩
  all_goals
    have hlt : id < 1 := (Array.getElem?_eq_some_iff.mp hnode).1
    obtain rfl : id = 0 := Nat.lt_one_iff.mp hlt
  · rfl
  · exact fun _ _ _ hid => absurd List.mem_cons_self hid

theorem dedent {tree image : Tree} (h : tree.Relaid renumber opened image) (depth line : Nat) :
    (Draft.dedent depth (renumber line) image opened).1 = (Draft.dedent depth line tree opened).1 ∧
      (Draft.dedent depth line tree opened).2.Relaid renumber
        (Draft.dedent depth (renumber line) image opened).2 := by
  induction opened generalizing tree image with
  | nil => exact ⟨rfl, rfl, h⟩
  | cons id below ih =>
    unfold Draft.dedent
    rw [h.isScope]
    split
    · exact ⟨rfl, rfl, h⟩
    · split
      · exact ⟨rfl, rfl, h⟩
      · exact ih (h.close line)

theorem closeAll (h : draft.Relaid renumber other) (line : Nat) :
    (draft.closeAll line).Relaid renumber (other.closeAll (renumber line)) := by
  obtain ⟨tree, blocks⟩ := draft
  obtain ⟨image, others⟩ := other
  obtain ⟨hopened, htree⟩ := h
  dsimp only at hopened htree
  subst hopened
  refine ⟨rfl, ?_⟩
  induction others generalizing tree image with
  | nil => exact htree
  | cons id below ih =>
    exact ih (tree.close line id) (image.close (renumber line) id) (htree.close line)

theorem innermost (h : draft.Relaid renumber other) : other.innermost = draft.innermost := by
  rw [Draft.innermost, Draft.innermost, h.opened]

theorem relaid_single {content : Content} (hid : id ≠ Tree.root)
    (hopen : ∀ block children, content = .block block children → id ∈ next) (column other : Nat) :
    Node.Relaid renumber next id ⟨.single line column, content⟩
      ⟨.single (renumber line) other, content⟩ :=
  ⟨rfl, (if_neg hid).symm, fun block children hblock hclosed =>
    absurd (hopen block children hblock) hclosed⟩

theorem addLeaf (h : draft.Relaid renumber other) (line column second : Nat) (leaf : Leaf) :
    (draft.addLeaf (.single line column) leaf).Relaid renumber
      (other.addLeaf (.single (renumber line) second) leaf) := by
  refine ⟨h.opened, ?_⟩
  rw [Draft.addLeaf, Draft.addLeaf, h.innermost]
  refine h.tree.push _ (relaid_single (Nat.ne_of_gt h.tree.size_pos) ?_ column second) ?_
  · exact fun _ _ hblock => nomatch hblock
  · exact fun _ hin => hin

theorem addBlock (h : draft.Relaid renumber other) (line column second : Nat) (block : Block) :
    (draft.addBlock (.single line column) block).Relaid renumber
      (other.addBlock (.single (renumber line) second) block) := by
  refine ⟨?_, ?_⟩
  · rw [Draft.addBlock, Draft.addBlock, h.opened, h.tree.size]
  · rw [Draft.addBlock, Draft.addBlock, h.innermost]
    refine h.tree.push _ (relaid_single (Nat.ne_of_gt h.tree.size_pos) ?_ column second) ?_
    · exact fun _ _ _ => List.mem_cons_self
    · exact fun _ hin => List.mem_cons_of_mem _ hin

theorem addScope (h : draft.Relaid renumber other) (line column second : Nat) (key : String) :
    (draft.addScope (.single line column) key).Relaid renumber
      (other.addScope (.single (renumber line) second) key) := by
  have hclosed := (h.closeAll line).tree
  refine ⟨congrArg (fun id => [id]) hclosed.size, ?_⟩
  refine hclosed.push _ (relaid_single (Nat.ne_of_gt hclosed.size_pos) ?_ column second) nofun
  exact fun _ _ _ => List.mem_cons_self

theorem extend (h : draft.Relaid renumber other) (id line count : Nat) (text : String) :
    (draft.extend id line text).Relaid renumber (other.extend id count text) := by
  refine ⟨congrArg (id :: ·) h.opened, h.tree.modify (fun _ _ hnode => ?_) ?_⟩
  · exact hnode.extend line count text
  · exact fun _ hin _ => List.mem_cons_of_mem id hin

theorem extensible? (h : draft.Relaid renumber other) : other.extensible? = draft.extensible? := by
  have hbare (tree : Tree) (id : NodeId) : (tree.get? id).any Node.isBareCommand =
      ((tree.get? id).map Node.content).any fun label =>
        Node.isBareCommand ⟨.single 0 0, label⟩ := by
    rw [Option.any_map]
    refine congrArg (Option.any · _) (funext fun node => ?_)
    obtain ⟨span, label⟩ := node
    cases label with
    | leaf => rfl
    | block block children => cases block <;> cases children <;> rfl
  rw [Draft.extensible?, Draft.extensible?, h.innermost, h.tree.children]
  refine congrArg (Option.filter · _) (funext fun id => ?_)
  rw [hbare, hbare, h.tree.map_content]

end Draft.Relaid
end Dialogue
