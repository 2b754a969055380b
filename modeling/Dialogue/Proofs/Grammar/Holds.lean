import Dialogue.Proofs.Grammar.Document
import Dialogue.Proofs.Parse.Lenient

/-! Trees that hold a document. The levels and labels of the nodes, in the order of their
numbers, say which document a tree holds. -/
namespace Dialogue

def Leaf.aimed (find? : String → Option NodeId) : Leaf → Leaf
  | jump key _ => jump key (find? key)
  | leaf => leaf

namespace Tree

/-- The siblings that an outline describes, with all that hangs on them. -/
inductive Lists (tree : Tree) : List NodeId → Outline → Prop
  | done : Lists tree [] .done
  | leaf {id : NodeId} {ids : List NodeId} {span : Span} {l : Leaf} {rest : Outline}
      (hnode : tree.get? id = some ⟨span, .leaf (l.aimed tree.find?)⟩)
      (hleaf : l.unaimed = l) (hrest : Lists tree ids rest) :
      Lists tree (id :: ids) (.leaf l rest)
  | block {id : NodeId} {ids children : List NodeId} {span : Span} {b : Block}
      {body rest : Outline} (hnode : tree.get? id = some ⟨span, .block b children⟩)
      (hbody : Lists tree children body) (hrest : Lists tree ids rest) :
      Lists tree (id :: ids) (.block b body rest)

def key? (tree : Tree) (id : NodeId) : Option String :=
  match tree.get? id with
  | some ⟨_, .block (.scope key) _⟩ => key
  | _ => none

/-- The document hangs on the root, and names lead to its sections. -/
def Holds (tree : Tree) (document : Document) : Prop :=
  ∃ span ids, tree.get? root = some ⟨span, .block (.scope none) ids⟩ ∧
    tree.Lists ids document.outline ∧
    ∀ key, tree.find? key = ids.find? (tree.key? · == some key)

theorem Lists.eq {tree : Tree} {ids : List NodeId} {outline other : Outline}
    (h : tree.Lists ids outline) (hother : tree.Lists ids other) : outline = other := by
  induction h generalizing other with
  | done =>
    cases hother with
    | done => rfl
  | @leaf id ids span l rest hnode hleaf _ ih =>
    cases hother with
    | block hblock => exact nomatch hnode.symm.trans hblock
    | @leaf _ _ _ l' rest' hsame hbare hrest =>
      rw [ih hrest]
      rw [hnode] at hsame
      have haimed : (l.aimed tree.find?).unaimed = (l'.aimed tree.find?).unaimed := by
        injection hsame with hsame
        injection hsame with _ hsame
        injection hsame with hsame
        rw [hsame]
      have hunaimed (leaf : Leaf) : (leaf.aimed tree.find?).unaimed = leaf.unaimed := by
        cases leaf <;> rfl
      rw [hunaimed, hunaimed, hleaf, hbare] at haimed
      rw [haimed]
  | block hnode _ _ ihbody ihrest =>
    cases hother with
    | leaf hleaf => exact nomatch hnode.symm.trans hleaf
    | block hsame hbody hrest =>
      rw [hnode] at hsame
      injection hsame with hsame
      injection hsame with _ hsame
      injection hsame with hblock hchildren
      subst hchildren
      rw [hblock, ihbody hbody, ihrest hrest]

theorem Holds.outline_eq {tree : Tree} {document other : Document} (h : tree.Holds document)
    (hother : tree.Holds other) : document.outline = other.outline := by
  obtain ⟨span, ids, hroot, hlists, _⟩ := h
  obtain ⟨span', ids', hroot', hlists', _⟩ := hother
  rw [hroot] at hroot'
  injection hroot' with hroot'
  injection hroot' with _ hroot'
  injection hroot' with _ hids
  subst hids
  exact hlists.eq hlists'

end Tree

namespace Outline

def size : Outline → Nat
  | done => 0
  | leaf _ rest => rest.size + 1
  | block _ body rest => body.size + rest.size + 1

@[simp] theorem length_shape (outline : Outline) (level : Nat) :
    (outline.shape level).length = outline.size := by
  induction outline generalizing level with
  | done => rfl
  | leaf l rest ih => simp [shape, size, ih]
  | block b body rest ihbody ihrest => simp [shape, size, ihbody, ihrest]

def tops (start : Nat) : Outline → List Nat
  | done => []
  | leaf _ rest => start :: rest.tops (start + 1)
  | block _ body rest => start :: rest.tops (start + body.size + 1)

variable {outline : Outline} {start level id : Nat} {entries : List Entry}
  {before after : List (Nat × Content)}

private theorem le_of_mem_tops (h : id ∈ outline.tops start) : start ≤ id := by
  induction outline generalizing start with
  | done => contradiction
  | leaf l rest ih =>
    rcases List.mem_cons.mp h with rfl | hrest
    · exact Nat.le_refl _
    · exact Nat.le_of_succ_le (ih hrest)
  | block b body rest _ ih =>
    rcases List.mem_cons.mp h with rfl | hrest
    · exact Nat.le_refl _
    · have hle := ih hrest
      omega

theorem sorted_tops (outline : Outline) (start : Nat) :
    (outline.tops start).Pairwise (· < ·) := by
  induction outline generalizing start with
  | done => exact .nil
  | leaf l rest ih => exact List.pairwise_cons.mpr ⟨fun id hid => le_of_mem_tops hid, ih _⟩
  | block b body rest _ ih =>
    refine List.pairwise_cons.mpr ⟨fun id hid => ?_, ih _⟩
    have hle := le_of_mem_tops hid
    omega

theorem exists_mem_of_slice {middle : List (Nat × Content)}
    (h : Sketch.shape entries = before ++ (middle ++ after)) (hlo : before.length ≤ id)
    (hhi : id < before.length + middle.length) :
    ∃ node ∈ middle, Sketch.levelAt entries id = node.1 ∧
      Sketch.labelAt? entries id = some node.2 := by
  have hmiddle : id - before.length < middle.length := by omega
  have hnode : (Sketch.shape entries)[id]? = some middle[id - before.length] := by
    rw [h, List.getElem?_append_right hlo, List.getElem?_append_left hmiddle]
    exact List.getElem?_eq_getElem hmiddle
  exact ⟨_, List.getElem_mem hmiddle, Sketch.levelAt_eq_of_shape hnode,
    Sketch.labelAt?_eq_of_shape hnode⟩

theorem mem_tops_iff (h : Sketch.shape entries = before ++ (outline.shape level ++ after)) :
    id ∈ outline.tops before.length ↔ before.length ≤ id ∧ id < before.length + outline.size ∧
      Sketch.levelAt entries id = level := by
  induction outline generalizing before with
  | done =>
    refine iff_of_false List.not_mem_nil fun ⟨hlo, hhi, _⟩ => ?_
    rw [size] at hhi
    omega
  | leaf l rest ih =>
    have hfirst := (Sketch.at_length_of_shape h).1
    have hslice : Sketch.shape entries =
        (before ++ [(level, .leaf l)]) ++ (rest.shape level ++ after) := by
      simpa [shape] using h
    have hrest := ih hslice
    rw [List.length_append, List.length_singleton] at hrest
    rw [tops, List.mem_cons, hrest, size]
    rcases Nat.lt_trichotomy id before.length with hless | rfl | hmore
    · omega
    · refine iff_of_true (.inl rfl) ⟨Nat.le_refl _, ?_, hfirst⟩
      omega
    · omega
  | block b body rest _ ih =>
    have hfirst := (Sketch.at_length_of_shape h).1
    have hbody (hlo : before.length < id) (hhi : id < before.length + body.size + 1) :
        level < Sketch.levelAt entries id := by
      have hslice : Sketch.shape entries = (before ++ [(level, .block b [])]) ++
          (body.shape (level + 1) ++ (rest.shape level ++ after)) := by
        simpa [shape] using h
      have hin : id < (before ++ [(level, Content.block b [])]).length +
          (body.shape (level + 1)).length := by
        rw [List.length_append, List.length_singleton, length_shape]
        omega
      have hbehind : (before ++ [(level, Content.block b [])]).length ≤ id := by
        rw [List.length_append, List.length_singleton]
        exact hlo
      obtain ⟨node, hnode, hlevel, _⟩ := exists_mem_of_slice hslice hbehind hin
      have hle := le_of_mem_shape hnode
      omega
    have hbehind : Sketch.shape entries =
        (before ++ (level, .block b []) :: body.shape (level + 1)) ++
          (rest.shape level ++ after) := by
      simpa [shape] using h
    have hrest := ih hbehind
    rw [List.length_append, List.length_cons, length_shape, ← Nat.add_assoc] at hrest
    rw [tops, List.mem_cons, hrest, size]
    rcases Nat.lt_trichotomy id before.length with hless | rfl | hmore
    · omega
    · refine iff_of_true (.inl rfl) ⟨Nat.le_refl _, ?_, hfirst⟩
      omega
    · rcases Nat.lt_or_ge id (before.length + body.size + 1) with hin | hout
      · have hdeep := hbody hmore hin
        omega
      · omega

end Outline

namespace Tree

variable {tree : Tree} {entries : List Entry} {level : Nat} {before after : List (Nat × Content)}

theorem children_eq_tops (h : tree.Drawn entries) {label : Content} {body : Outline}
    (hshape : Sketch.shape entries =
      before ++ ((level, label) :: (body.shape (level + 1) ++ after)))
    (hafter : ∀ node, after.head? = some node → node.1 ≤ level) :
    tree.children before.length = body.tops (before.length + 1) := by
  have hslice : Sketch.shape entries = (before ++ [(level, label)]) ++
      (body.shape (level + 1) ++ after) := by
    rw [hshape, List.append_assoc, List.singleton_append]
  have hbefore : (before ++ [(level, label)]).length = before.length + 1 := by
    rw [List.length_append, List.length_singleton]
  have hlength : entries.length = before.length + 1 + body.size + after.length := by
    have hsame := congrArg List.length hslice
    rw [Sketch.shape, List.length_map, List.length_append, hbefore, List.length_append,
      Outline.length_shape] at hsame
    omega
  have hlevel := (Sketch.at_length_of_shape hshape).1
  have hdeep (node : Nat) (hlo : before.length + 1 ≤ node)
      (hhi : node < before.length + 1 + body.size) : level < Sketch.levelAt entries node := by
    rw [← hbefore] at hlo hhi
    obtain ⟨found, hmem, heq, _⟩ := Outline.exists_mem_of_slice hslice hlo
      (by rw [Outline.length_shape]; exact hhi)
    have hle := Outline.le_of_mem_shape hmem
    omega
  have htops (id : Nat) : id ∈ body.tops (before.length + 1) ↔ before.length + 1 ≤ id ∧
      id < before.length + 1 + body.size ∧ Sketch.levelAt entries id = level + 1 := by
    rw [← hbefore]
    exact Outline.mem_tops_iff hslice
  refine eq_of_sorted (h.shaped.sorted _) (Outline.sorted_tops ..) fun child => ?_
  rw [h.shaped.mem_children_iff, h.size_eq, htops]
  constructor
  · rintro ⟨hin, hparent⟩
    have hlt := hparent.lt
    have hstep := hparent.level_eq
    rw [hlevel] at hstep
    refine ⟨hlt, Nat.lt_of_not_le fun hout => ?_, hstep⟩
    -- What follows the body is not below the block.
    obtain ⟨next, rest, rfl⟩ := List.exists_cons_of_length_pos (show 0 < after.length by omega)
    have hnext : Sketch.levelAt entries (before.length + 1 + body.size) = next.1 := by
      have hcut : Sketch.shape entries = ((before ++ [(level, label)]) ++ body.shape (level + 1)) ++
          (next.1, next.2) :: rest := by
        rw [hslice]
        exact (List.append_assoc ..).symm
      have hfirst := (Sketch.at_length_of_shape hcut).1
      rwa [List.length_append, hbefore, Outline.length_shape] at hfirst
    have hle := hafter next rfl
    rcases Nat.lt_or_eq_of_le hout with hmore | heq
    · have hbetween := hparent.le_between _ (by omega) hmore
      omega
    · rw [heq] at hnext
      omega
  · rintro ⟨hlo, hhi, hstep⟩
    refine ⟨by omega, hlo, by omega, fun node hnode hless => ?_⟩
    have hmore := hdeep node hnode (by omega)
    omega

theorem exists_leaf_of_label (h : tree.Spells entries) {id : Nat} {l : Leaf}
    (hlabel : Sketch.labelAt? entries id = some (.leaf l)) :
    l.unaimed = l ∧ ∃ span, tree.get? id = some ⟨span, .leaf (l.aimed tree.find?)⟩ := by
  have hnode := h.drawn.label? id
  rw [hlabel, label?_eq] at hnode
  obtain ⟨⟨span, content⟩, hget, hbare⟩ := Option.map_eq_some_iff.mp hnode
  cases content with
  | block => contradiction
  | leaf found =>
    have hunaimed : found.unaimed = l := by
      injection hbare
    subst hunaimed
    refine ⟨by cases found <;> rfl, span, ?_⟩
    rw [hget]
    cases found with
    | jump key target =>
      have htarget := h.target? id key hlabel
      rw [target?, hget] at htarget
      rw [Leaf.unaimed, Leaf.aimed, ← htarget]
      rfl
    | line => rfl
    | comment => rfl
    | back => rfl

theorem exists_block_of_label (h : tree.Drawn entries) {id : Nat} {b : Block}
    (hlabel : Sketch.labelAt? entries id = some (.block b [])) :
    ∃ span, tree.get? id = some ⟨span, .block b (tree.children id)⟩ := by
  have hnode := h.label? id
  rw [hlabel, label?_eq] at hnode
  obtain ⟨⟨span, content⟩, hget, hbare⟩ := Option.map_eq_some_iff.mp hnode
  cases content with
  | leaf => contradiction
  | block found children =>
    have hfound : found = b := by
      injection hbare
    rw [Tree.children, hget, hfound]
    exact ⟨span, rfl⟩

theorem lists_of_shape (h : tree.Spells entries) {outline : Outline}
    (hshape : Sketch.shape entries = before ++ (outline.shape level ++ after))
    (hafter : ∀ node, after.head? = some node → node.1 ≤ level) :
    tree.Lists (outline.tops before.length) outline := by
  induction outline generalizing before level after with
  | done => exact .done
  | leaf l rest ih =>
    have hslice : Sketch.shape entries =
        (before ++ [(level, .leaf l)]) ++ (rest.shape level ++ after) := by
      simpa [Outline.shape] using hshape
    have hrest := ih hslice hafter
    rw [List.length_append, List.length_singleton] at hrest
    obtain ⟨hleaf, span, hnode⟩ := exists_leaf_of_label h (Sketch.at_length_of_shape hshape).2
    exact .leaf hnode hleaf hrest
  | block b body rest ihbody ihrest =>
    have hwhole : Sketch.shape entries =
        before ++ ((level, .block b []) :: (body.shape (level + 1) ++
          (rest.shape level ++ after))) := by
      simpa [Outline.shape] using hshape
    have hslice : Sketch.shape entries =
        (before ++ [(level, .block b [])]) ++
          (body.shape (level + 1) ++ (rest.shape level ++ after)) := by
      rw [hwhole, List.append_assoc, List.singleton_append]
    have hbehind : Sketch.shape entries =
        (before ++ (level, .block b []) :: body.shape (level + 1)) ++
          (rest.shape level ++ after) := by
      rw [hwhole, List.append_assoc, List.cons_append]
    have hnext : ∀ node, (rest.shape level ++ after).head? = some node → node.1 ≤ level := by
      intro node hhead
      rw [List.head?_append, Option.or_eq_some_iff] at hhead
      rcases hhead with hfirst | ⟨_, hlater⟩
      · exact Nat.le_of_eq (Outline.head?_shape hfirst)
      · exact hafter node hlater
    have hrest := ihrest hbehind hafter
    have hbody := ihbody hslice fun node hhead => Nat.le_succ_of_le (hnext node hhead)
    rw [List.length_append, List.length_singleton] at hbody
    rw [List.length_append, List.length_cons, Outline.length_shape, ← Nat.add_assoc] at hrest
    obtain ⟨span, hnode⟩ := exists_block_of_label h.drawn (Sketch.at_length_of_shape hwhole).2
    rw [children_eq_tops h.drawn hwhole hnext] at hnode
    exact .block hnode hbody hrest

private theorem key?_eq (h : tree.Drawn entries) (id : Nat) :
    tree.key? id = entries[id]?.bind Entry.key? := by
  have hmark := h.mark? id
  unfold mark? at hmark
  unfold key?
  cases hnode : tree.get? id with
  | none =>
    rw [hnode, Option.map_none] at hmark
    rw [Option.map_eq_none_iff.mp hmark.symm]
    rfl
  | some node =>
    rw [hnode, Option.map_some] at hmark
    obtain ⟨⟨level, mark⟩, hentry, rfl⟩ := Option.map_eq_some_iff.mp hmark.symm
    rw [hentry]
    obtain ⟨span, content⟩ := node
    cases content with
    | leaf => rfl
    | block block children => cases block <;> rfl

theorem find?_eq_of_least {ids : List Nat} (hsorted : ids.Pairwise (· < ·)) {p : Nat → Bool}
    {id : Nat} (hmem : id ∈ ids) (hid : p id = true)
    (hleast : ∀ other ∈ ids, p other = true → id ≤ other) : ids.find? p = some id := by
  induction ids with
  | nil => contradiction
  | cons first rest ih =>
    obtain ⟨hfirst, hrest⟩ := List.pairwise_cons.mp hsorted
    rcases List.mem_cons.mp hmem with rfl | hmem
    · exact List.find?_cons_of_pos hid
    · have hlt := hfirst id hmem
      have hnot : ¬ p first = true := fun hsome =>
        Nat.not_lt.mpr (hleast first List.mem_cons_self hsome) hlt
      rw [List.find?_cons_of_neg hnot]
      exact ih hrest hmem fun other hother => hleast other (List.mem_cons_of_mem first hother)

theorem find?_eq_find?_tops (h : tree.Spells entries) {outline : Outline} {root : Nat × Content}
    (hshape : Sketch.shape entries = [root] ++ (outline.shape 1 ++ [])) (key : String) :
    tree.find? key = (outline.tops 1).find? (tree.key? · == some key) := by
  rw [find?, h.names, Sketch.lookup_names]
  cases hfirst : entries.findIdx? (·.key? == some key) with
  | none =>
    rw [List.findIdx?_eq_none_iff] at hfirst
    refine (List.find?_eq_none.mpr fun id _ hid => ?_).symm
    rw [beq_iff_eq, key?_eq h.drawn] at hid
    obtain ⟨entry, hentry, hkey⟩ := Option.bind_eq_some_iff.mp hid
    have hno := hfirst entry (List.mem_of_getElem? hentry)
    simp [hkey] at hno
  | some id =>
    obtain ⟨hlt, hkey, hleast⟩ := List.findIdx?_eq_some_iff_getElem.mp hfirst
    have hentry : entries[id]? = some entries[id] := List.getElem?_eq_getElem hlt
    have hhere : (tree.key? id == some key) = true := by
      rw [key?_eq h.drawn, hentry]
      exact hkey
    refine (find?_eq_of_least (Outline.sorted_tops ..) ?_ hhere fun other _ hother => ?_).symm
    · -- A node with a name is a section, and sections stand on the root.
      have hscope : Sketch.isScopeAt entries id = true := by
        rw [Sketch.isScopeAt, Sketch.labelAt?, hentry]
        exact Entry.isScope_of_key? (beq_iff_eq.mp hkey)
      have hpos : 0 < id := by
        refine Nat.pos_of_ne_zero fun hzero => ?_
        subst hzero
        rw [h.regular.root] at hentry
        rw [← Option.some.inj hentry] at hkey
        contradiction
      have hlength := congrArg List.length hshape
      rw [Sketch.shape, List.length_map, List.append_nil, List.length_append,
        List.length_singleton, Outline.length_shape] at hlength
      refine (Outline.mem_tops_iff hshape).mpr ⟨hpos, ?_, h.regular.section_level id hpos hscope⟩
      rw [List.length_singleton, ← hlength]
      exact hlt
    · rw [beq_iff_eq, key?_eq h.drawn] at hother
      obtain ⟨entry, hsome, hname⟩ := Option.bind_eq_some_iff.mp hother
      refine Nat.le_of_not_lt fun hbefore => hleast other hbefore ?_
      obtain ⟨hin, heq⟩ := List.getElem?_eq_some_iff.mp hsome
      rw [heq, hname]
      exact beq_self_eq_true _

/-- A tree whose levels and labels are those of a document holds the document. -/
theorem holds_of_shape (h : tree.Spells entries) {document : Document}
    (hshape : Sketch.shape entries = document.shape) : tree.Holds document := by
  have hwhole : Sketch.shape entries =
      [] ++ ((0, Content.block (.scope none) []) :: (document.outline.shape 1 ++ [])) := by
    rw [hshape, List.append_nil]
    rfl
  have hslice : Sketch.shape entries =
      [(0, Content.block (.scope none) [])] ++ (document.outline.shape 1 ++ []) := hwhole
  obtain ⟨span, hroot⟩ := exists_block_of_label h.drawn (Sketch.at_length_of_shape hwhole).2
  rw [children_eq_tops h.drawn hwhole nofun] at hroot
  exact ⟨span, _, hroot, lists_of_shape h hslice nofun, find?_eq_find?_tops h hslice⟩

end Tree
end Dialogue
