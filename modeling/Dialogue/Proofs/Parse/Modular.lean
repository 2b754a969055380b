import Dialogue.Proofs.Parse.Behind
import Dialogue.Proofs.Parse.Names
import Dialogue.Proofs.Parse.Spans

/-! Scripts in parts. A script may be cut before any section that is not indented: what its lines
come to is what both parts come to, with the second one moved behind the first. Only jumps see the
other part, and only those that lead nowhere in their own. -/
namespace Dialogue

def Node.redirect (f : String → Option NodeId → Option NodeId) : Node → Node
  | ⟨span, .leaf (.jump key target)⟩ => ⟨span, .leaf (.jump key (f key target))⟩
  | node => node

def Tree.settles (tree : Tree) (diagnostic : Diagnostic) : Bool :=
  match diagnostic.cause with
  | .unknownScope key => (tree.find? key).isSome
  | _ => false

/-- A script made of two others: `shift` nodes and `count` lines come before the second one. -/
structure Script.Joined (whole front back : Script) (lines : List String) (shift count : Nat) :
    Prop where
  lineCount : whole.lineCount = front.lineCount + back.lineCount
  size : whole.tree.size = shift + back.tree.size
  get?_front : ∀ id, id ≠ Tree.root → id < front.tree.size → whole.tree.get? id =
    (front.tree.get? id).map (Node.redirect fun key target =>
      target.or ((back.tree.find? key).map (shift + ·)))
  get?_back : ∀ id, id ≠ Tree.root → whole.tree.get? (shift + id) =
    (back.tree.get? id).map fun node => (node.moved shift count).redirect fun key target =>
      (target.map (shift + ·)).or (front.tree.find? key)
  children_root : whole.tree.children Tree.root =
    front.tree.children Tree.root ++ (back.tree.children Tree.root).map (shift + ·)
  find? : ∀ key, whole.tree.find? key =
    (front.tree.find? key).or ((back.tree.find? key).map (shift + ·))
  apart : ∀ key, front.tree.find? key = none ∨ back.tree.find? key = none
  diagnostics : whole.diagnostics =
    front.diagnostics.filter (! ·.cause.isUnknown) ++
    (back.diagnostics.filter (! ·.cause.isUnknown)).map (Diagnostic.moved count) ++
    ((front.diagnostics.filter (·.cause.isUnknown)).filter (! back.tree.settles ·) ++
      ((back.diagnostics.filter (·.cause.isUnknown)).filter (! front.tree.settles ·)).map
        (Diagnostic.moved count))
  unknown : List.Forall₂ (whole.tree.Misses lines) (whole.diagnostics.filter (·.cause.isUnknown))
    ((List.range whole.tree.size).filter whole.tree.isLost)

namespace Node

variable {node other : Node}

private theorem redirect_redirect (f g : String → Option NodeId → Option NodeId) (node : Node) :
    (node.redirect g).redirect f = node.redirect fun key target => f key (g key target) := by
  obtain ⟨span, content⟩ := node
  cases content with
  | block => rfl
  | leaf leaf => cases leaf <;> rfl

private theorem moved_redirect (shift count : Nat) (f : String → Option NodeId → Option NodeId)
    (node : Node) : (node.redirect f).moved shift count = (node.moved shift count).redirect f := by
  obtain ⟨span, content⟩ := node
  cases content with
  | block => rfl
  | leaf leaf => cases leaf <;> rfl

@[simp] theorem bare_redirect (f : String → Option NodeId → Option NodeId) (node : Node) :
    (node.redirect f).content.bare = node.content.bare := by
  obtain ⟨span, content⟩ := node
  cases content with
  | block => rfl
  | leaf leaf => cases leaf <;> rfl

@[simp] theorem children_redirect (f : String → Option NodeId → Option NodeId) (node : Node) :
    (node.redirect f).children = node.children := by
  obtain ⟨span, content⟩ := node
  cases content with
  | block => rfl
  | leaf leaf => cases leaf <;> rfl

private theorem span_aim (target : NodeId) (node : Node) : (node.aim target).span = node.span := by
  unfold aim
  split <;> rfl

theorem eq_redirect {f : String → Option NodeId} (hspan : node.span = other.span)
    (hbare : node.content.bare = other.content.bare) (hchildren : node.children = other.children)
    (htarget : ∀ key target, node.content = .leaf (.jump key target) → target = f key) :
    node = other.redirect fun key _ => f key := by
  obtain ⟨span, content⟩ := node
  obtain ⟨_, found⟩ := other
  obtain rfl := hspan
  cases content with
  | block block children =>
    cases found with
    | leaf => contradiction
    | block found others =>
      obtain rfl : children = others := hchildren
      obtain rfl := (Content.block.inj hbare).1
      rfl
  | leaf leaf =>
    cases found with
    | block => contradiction
    | leaf found =>
      have hleaf := Content.leaf.inj hbare
      cases leaf with
      | jump key target =>
        obtain rfl := htarget key target rfl
        cases found with
        | jump => cases hleaf; rfl
        | _ => contradiction
      | _ =>
        cases found <;> cases hleaf
        rfl

end Node

namespace Script.Joined

variable {whole front back : Script} {lines : List String} {shift count : Nat} {id : NodeId}

theorem label?_front (h : whole.Joined front back lines shift count) (hne : id ≠ Tree.root)
    (hid : id < front.tree.size) : whole.tree.label? id = front.tree.label? id := by
  rw [Tree.label?_eq, Tree.label?_eq, h.get?_front id hne hid, Option.map_map]
  exact congrArg (Option.map · _) (funext (Node.bare_redirect _))

theorem children_front (h : whole.Joined front back lines shift count) (hne : id ≠ Tree.root)
    (hid : id < front.tree.size) : whole.tree.children id = front.tree.children id := by
  rw [Tree.children_eq, Tree.children_eq, h.get?_front id hne hid, Option.map_map]
  exact congrArg (fun f => (Option.map f _).getD []) (funext (Node.children_redirect _))

theorem label?_back (h : whole.Joined front back lines shift count) (hne : id ≠ Tree.root) :
    whole.tree.label? (shift + id) = back.tree.label? id := by
  rw [Tree.label?_eq, Tree.label?_eq, h.get?_back id hne, Option.map_map]
  refine congrArg (Option.map · _) (funext fun node => ?_)
  rw [Function.comp, Node.bare_redirect]
  exact Content.bare_mapChildren ..

theorem children_back (h : whole.Joined front back lines shift count) (hne : id ≠ Tree.root) :
    whole.tree.children (shift + id) = (back.tree.children id).map (shift + ·) := by
  rw [Tree.children_eq, Tree.children_eq, h.get?_back id hne]
  cases back.tree.get? id with
  | none => rfl
  | some node =>
    simp only [Option.map_some, Option.getD_some, Node.children_redirect, Node.children_moved]

end Script.Joined

private theorem Link.map_span_resolve (tree : Tree) (link : Link) (id : NodeId) :
    ((link.resolve tree).get? id).map Node.span = (tree.get? id).map Node.span := by
  unfold resolve
  split
  · rw [Tree.get?_modify]
    split
    · rw [Option.map_map]
      exact congrArg (Option.map · _) (funext (Node.span_aim _))
    · rfl
  · rfl

theorem Progress.Matches.get?_linked {progress : Progress} {reading : Reading}
    (h : progress.Matches reading)
    (hlinks : (reading.links.toList.map fun link => (link.node, link.key)) =
      Sketch.jumps reading.entries) (id : NodeId) :
    progress.linked.get? id =
      (progress.closed.get? id).map (Node.redirect fun key _ => progress.linked.find? key) := by
  obtain ⟨hdrawn, _, htargets⟩ := h.linked hlinks
  have hspan := Progress.linked_keeps (f := fun tree => (tree.get? id).map Node.span)
    (fun tree link => Link.map_span_resolve tree link id) progress
  have hmark := Progress.linked_keeps (f := fun tree => tree.mark? id)
    (fun tree link => Link.mark?_resolve tree link id) progress
  have hchildren := Progress.linked_keeps (f := fun tree => tree.children id)
    (fun tree link => Link.children_resolve tree link id) progress
  simp only [Tree.mark?, Tree.children_eq] at hspan hmark hchildren
  cases hclosed : progress.closed.get? id with
  | none =>
    rw [hclosed] at hspan
    exact Option.map_eq_none_iff.mp hspan
  | some other =>
    rw [hclosed] at hspan hmark hchildren
    obtain ⟨node, hnode, hsame⟩ := Option.map_eq_some_iff.mp hspan
    rw [hnode] at hmark hchildren ⊢
    refine congrArg some (Node.eq_redirect hsame ?_ hchildren fun key target hjump => ?_)
    · exact congrArg Mark.label (Option.some.inj hmark)
    · have hfind := htargets id key
      rw [← hdrawn.label?, Tree.label?_eq, Tree.target?, hnode, Option.map_some, Option.bind_some,
        hjump] at hfind
      exact hfind rfl

theorem Review.rejections_lenient (tree : Tree) (asked : Array Query) (ids : List NodeId) :
    rejections .lenient tree asked ids = [] := by
  induction ids generalizing asked with
  | nil => rfl
  | cons id rest ih =>
    rw [rejections]
    cases tree.command? id with
    | none => exact ih asked
    | some text => exact ih _

theorem Link.complaint?_filter {tree front other : Tree}
    (h : ∀ key, tree.find? key = none ↔ front.find? key = none ∧ other.find? key = none)
    (link : Link) : link.complaint? tree = (link.complaint? front).filter (! other.settles ·) := by
  refine Option.ext fun diagnostic => ?_
  rw [Option.filter_eq_some_iff, complaint?_eq_some_iff, complaint?_eq_some_iff, h, and_assoc,
    and_assoc]
  refine and_congr_right fun _ => ?_
  rw [and_comm]
  refine and_congr_right fun hdiagnostic => ?_
  rw [hdiagnostic, Tree.settles, Bool.not_eq_true', Option.isSome_eq_false_iff,
    Option.isNone_iff_eq_none]

private theorem Link.complaint?_moved (tree : Tree) (shift count : Nat) (link : Link) :
    (link.moved shift count).complaint? tree =
      (link.complaint? tree).map (Diagnostic.moved count) := by
  unfold complaint? moved
  cases tree.find? link.key <;> rfl

theorem Reading.complaints_append {tree first second : Tree} (front back : Reading)
    (h : ∀ key, tree.find? key = none ↔ first.find? key = none ∧ second.find? key = none) :
    (front.append back).links.toList.filterMap (Link.complaint? tree) =
      (front.links.toList.filterMap (Link.complaint? first)).filter (! second.settles ·) ++
      ((back.links.toList.filterMap (Link.complaint? second)).filter (! first.settles ·)).map
        (Diagnostic.moved front.lineCount) := by
  have hfirst := Link.complaint?_filter h
  have hsecond := Link.complaint?_filter fun key => (h key).trans and_comm
  rw [List.filter_filterMap, List.filter_filterMap]
  simp only [← hfirst, ← hsecond, append, Array.toList_append, Array.toList_map,
    List.filterMap_append, List.filterMap_map, List.map_filterMap, Function.comp_def,
    Link.complaint?_moved]

section Parse

variable {options : Options} {lines more : List String} {key : String} {line : Line}
  {script front back : Script} {reading before after : Reading} {asked queries : Array Query}
  {tree other : Tree}

theorem exists_settled_of_read {checker : Checker}
    (h : Reading.read options checker lines = .ok reading) :
    ∃ script, (parseLines options checker lines).result = .ok script ∧
      script.Settled checker (parseLines options checker lines).asked reading
        (Progress.read options checker lines).linked := by
  obtain ⟨script, hscript⟩ := exists_ok_of_read h
  obtain ⟨found, hfound, hsettled⟩ := settled_of_ok hscript
  obtain rfl := Except.ok.inj (h.symm.trans hfound)
  exact ⟨script, hscript, hsettled⟩

namespace Script.Settled

theorem tree_lenient (h : script.Settled .lenient asked reading tree) : script.tree = tree := by
  rw [h.tree, Review.rejections_lenient]
  rfl

theorem diagnostics_lenient (h : script.Settled .lenient asked reading tree) :
    script.diagnostics = reading.diagnostics.toList ++
      reading.links.toList.filterMap (Link.complaint? script.tree) := by
  rw [h.diagnostics, Review.rejections_lenient, h.tree_lenient]
  exact List.append_nil _

private theorem filter_not_isUnknown (h : script.Settled .lenient asked reading tree)
    (hread : Reading.read options .lenient lines = .ok reading) :
    script.diagnostics.filter (! ·.cause.isUnknown) = reading.diagnostics.toList := by
  have hlinks : (reading.links.toList.filterMap (Link.complaint? script.tree)).filter
      (! ·.cause.isUnknown) = [] := by
    refine List.filter_eq_nil_iff.mpr fun diagnostic hmem => ?_
    obtain ⟨link, _, hcomplaint⟩ := List.mem_filterMap.mp hmem
    rw [(Link.complaint?_eq_some_iff.mp hcomplaint).2]
    exact Bool.false_ne_true
  have hscan : reading.diagnostics.toList.filter (! ·.cause.isUnknown) =
      reading.diagnostics.toList := by
    refine List.filter_eq_self.mpr fun diagnostic hmem => ?_
    rw [Reading.isUnknown_of_mem_diagnostics hread diagnostic hmem]
    rfl
  rw [h.diagnostics_lenient, List.filter_append, hlinks, hscan, List.append_nil]

theorem find?_eq_none_iff (h : script.Settled .lenient asked reading tree) :
    script.tree.find? key = none ↔ key ∉ reading.keys := by
  rw [Tree.find?, h.pruned.names]
  exact Sketch.lookup_names_eq_none_iff

theorem apart_iff (hfront : front.Settled .lenient asked before tree)
    (hback : back.Settled .lenient queries after other) :
    before.Apart after ↔ ∀ key, front.tree.find? key = none ∨ back.tree.find? key = none := by
  simp only [hfront.find?_eq_none_iff, hback.find?_eq_none_iff, Reading.Apart, imp_iff_not_or]

theorem get?_eq (h : script.Settled .lenient asked reading (Progress.read options .lenient lines).linked)
    (hread : Reading.read options .lenient lines = .ok reading) (id : NodeId) :
    script.tree.get? id = ((Progress.read options .lenient lines).closed.get? id).map
      (Node.redirect fun key _ => script.tree.find? key) := by
  have hmatches := Progress.keeps_read options .lenient lines
  rw [hread] at hmatches
  rw [h.tree_lenient]
  exact Progress.Matches.get?_linked hmatches (Reading.links_eq hread) id

private theorem children_eq
    (h : script.Settled .lenient asked reading (Progress.read options .lenient lines).linked)
    (id : NodeId) :
    script.tree.children id = (Progress.read options .lenient lines).closed.children id := by
  rw [h.tree_lenient]
  exact Progress.linked_keeps (f := fun tree => tree.children id)
    (fun tree link => Link.children_resolve tree link id) _

private theorem size_eq
    (h : script.Settled .lenient asked reading (Progress.read options .lenient lines).linked) :
    script.tree.size = (Progress.read options .lenient lines).closed.size := by
  rw [h.tree_lenient]
  exact Progress.linked_keeps Link.size_resolve _

end Script.Settled

/-- Two scripts, of which a section heads the second, make one if they share no name. -/
theorem exists_joined_of_apart (hfail : options.duplicates = .fail) (hheads : line.Heads more key)
    (hfront : (parseLines options .lenient lines).result = .ok front)
    (hback : (parseLines options .lenient more).result = .ok back)
    (hapart : ∀ key, front.tree.find? key = none ∨ back.tree.find? key = none) :
    ∃ whole, (parseLines options .lenient (lines ++ more)).result = .ok whole ∧
      whole.Joined front back (lines ++ more) (front.tree.size - 1) lines.length := by
  obtain ⟨before, hbefore, hfirst⟩ := settled_of_ok hfront
  obtain ⟨after, hafter, hsecond⟩ := settled_of_ok hback
  have hdisjoint : before.Apart after := (hfirst.apart_iff hsecond).mpr hapart
  have hread : Reading.read options .lenient (lines ++ more) = .ok (before.append after) :=
    (Reading.read_append_iff hfail hheads).mpr ⟨before, after, hbefore, hafter, hdisjoint, rfl⟩
  obtain ⟨whole, hwhole, hsettled⟩ := exists_settled_of_read hread
  refine ⟨whole, hwhole, ?_⟩
  have hjoins := Progress.joins_closed hfail hheads hbefore hafter hdisjoint
  have hcount := Reading.lineCount_of_read hbefore
  have hshift : before.shift = front.tree.size - 1 := by
    rw [Reading.shift, hfirst.pruned.size_eq]
  have hfind (key : String) : whole.tree.find? key =
      (front.tree.find? key).or ((back.tree.find? key).map (before.shift + ·)) := by
    rw [Tree.find?, Tree.find?, Tree.find?, hsettled.pruned.names, hfirst.pruned.names,
      hsecond.pruned.names]
    exact Sketch.lookup_names_join hfirst.regular.length_pos hsecond.regular.root key
  rw [← hshift, ← hcount]
  constructor
  · rw [hsettled.lineCount, hfirst.lineCount, hsecond.lineCount]
    rfl
  · rw [hsettled.size_eq, hsecond.size_eq]
    exact hjoins.size_whole
  · intro id hne hid
    have hle : id ≤ before.shift := hshift ▸ Nat.le_sub_one_of_lt hid
    rw [hsettled.get?_eq hread, hfirst.get?_eq hbefore, hjoins.get?_front id (Nat.pos_of_ne_zero hne)
      hle, Option.map_map]
    refine congrArg (Option.map · _) (funext fun node => ?_)
    simp only [Function.comp, Node.redirect_redirect, hfind]
  · intro id hne
    rw [hsettled.get?_eq hread, hsecond.get?_eq hafter, hjoins.get?_back id (Nat.pos_of_ne_zero hne),
      Option.map_map, Option.map_map]
    refine congrArg (Option.map · _) (funext fun node => ?_)
    simp only [Function.comp, Node.moved_redirect, Node.redirect_redirect, hfind]
    refine congrArg (Node.redirect · _) (funext fun key => funext fun _ => ?_)
    rcases hapart key with hnone | hnone
    · rw [hnone, Option.none_or, Option.or_none]
    · rw [hnone, Option.map_none, Option.none_or, Option.or_none]
  · rw [hsettled.children_eq, hfirst.children_eq, hsecond.children_eq]
    exact hjoins.children_root
  · exact hfind
  · exact hapart
  · have hnone (key : String) : whole.tree.find? key = none ↔
        front.tree.find? key = none ∧ back.tree.find? key = none := by
      rw [hfind, Option.or_eq_none_iff, Option.map_eq_none_iff]
    rw [hfirst.filter_not_isUnknown hbefore, hsecond.filter_not_isUnknown hafter,
      hfirst.filter_isUnknown hbefore, hsecond.filter_isUnknown hafter, ← hfirst.tree_lenient,
      ← hsecond.tree_lenient, ← Reading.complaints_append before after hnone,
      hsettled.diagnostics_lenient, Reading.append, Array.toList_append, Array.toList_map]
  · exact hsettled.forall₂_unknown hread

end Parse

/-- A script whose lines go on with a section is made of two scripts. -/
theorem joined_of_ok {options : Options} {lines more : List String} {line : Line} {key : String}
    {whole : Script} (hfail : options.duplicates = .fail) (hheads : line.Heads more key)
    (h : (parseLines options .lenient (lines ++ more)).result = .ok whole) :
    ∃ front back, (parseLines options .lenient lines).result = .ok front ∧
      (parseLines options .lenient more).result = .ok back ∧
      whole.Joined front back (lines ++ more) (front.tree.size - 1) lines.length := by
  obtain ⟨reading, hread, _⟩ := settled_of_ok h
  obtain ⟨before, after, hbefore, hafter, hapart, _⟩ :=
    (Reading.read_append_iff hfail hheads).mp hread
  obtain ⟨front, hfront, hfirst⟩ := exists_settled_of_read hbefore
  obtain ⟨back, hback, hsecond⟩ := exists_settled_of_read hafter
  obtain ⟨joined, hjoined, hparts⟩ :=
    exists_joined_of_apart hfail hheads hfront hback ((hfirst.apart_iff hsecond).mp hapart)
  obtain rfl := Except.ok.inj (h.symm.trans hjoined)
  exact ⟨front, back, hfront, hback, hparts⟩

/-- Jumps into both parts, and jumps that lead nowhere in either. -/
theorem joined_of_crossing_jumps :
    let lines := ["-> end", "= act", "# do", "\tdone", "-> gone"]
    let more := ["= end", "at last", "-> act", "-> gone"]
    let line : Line := ⟨0, [], .scope, " end".toList⟩
    ({} : Options).duplicates = .fail ∧ line.Heads more "end" ∧
      ∃ whole front back, (parseLines {} .lenient (lines ++ more)).result = .ok whole ∧
        (parseLines {} .lenient lines).result = .ok front ∧
        (parseLines {} .lenient more).result = .ok back ∧
        whole.Joined front back (lines ++ more) (front.tree.size - 1) lines.length ∧
        whole.tree.target? 1 = some 6 ∧ whole.tree.target? 8 = some 2 ∧
        whole.diagnostics = [⟨4, 2, .unknownScope "gone"⟩, ⟨8, 2, .unknownScope "gone"⟩] := by
  intro lines more line
  have hheads : line.Heads more "end" := ⟨by decide +kernel, rfl, rfl, by decide +kernel⟩
  have hparsed : (parseLines {} .lenient (lines ++ more)).result.toOption.map (fun script =>
      (script.tree.target? 1, script.tree.target? 8, script.diagnostics)) =
      some (some 6, some 2,
        [⟨4, 2, .unknownScope "gone"⟩, ⟨8, 2, .unknownScope "gone"⟩]) := by
    decide +kernel
  obtain ⟨whole, hparse, hsaid⟩ := exists_ok_of_map_toOption hparsed
  obtain ⟨hjump, hrest⟩ := Prod.mk.inj hsaid
  obtain ⟨hback, hdiagnostics⟩ := Prod.mk.inj hrest
  obtain ⟨front, back, hfront, hsecond, hjoined⟩ := joined_of_ok rfl hheads hparse
  exact ⟨rfl, hheads, whole, front, back, hparse, hfront, hsecond, hjoined, hjump, hback,
    hdiagnostics⟩

end Dialogue
