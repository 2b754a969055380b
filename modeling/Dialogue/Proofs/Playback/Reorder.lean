import Dialogue.Proofs.Parse.Parts
import Dialogue.Proofs.Playback.Twins

/-! Reordered sections. A script is put together part by part, and each part stands in it as it is
by itself. In whatever order they come, the same nodes are there to be played. -/
namespace Dialogue

/-- A script of the lines before the sections and of some parts, in which each part is found under
its name. Right behind what comes before the sections there is a section, if there is any. -/
structure Script.Assembled (script preamble : Script) (parts : List Part) : Prop where
  aimed : script.tree.Aimed
  isScope_root : script.tree.isScope Tree.root = true
  front : script.tree.Hosts preamble.tree 0
  part : ∀ part ∈ parts, ∃ own shift id, (parseLines {} .lenient part.lines).result = .ok own ∧
    script.tree.Hosts own.tree shift ∧ own.tree.find? part.key = some id ∧
    script.tree.find? part.key = some (shift + id)
  unnamed : ∀ key, key ∉ parts.map Part.key → script.tree.find? key = none
  children_root : ∃ sections,
    script.tree.children Tree.root = preamble.tree.children Tree.root ++ sections ∧
    (sections = [] ↔ parts = []) ∧ ∀ id ∈ sections.head?, script.tree.isScope id = true

theorem Tree.Forward.hosts {tree : Tree} (h : tree.Forward) : tree.Hosts tree 0 := by
  refine ⟨h, Nat.le_of_eq (Nat.zero_add _), fun node _ _ => ?_, fun node _ _ => ?_⟩
  · rw [Nat.zero_add]
  · simp only [Nat.zero_add]
    exact (List.map_id _).symm

namespace Script.Joined

variable {whole front back : Script} {lines : List String} {shift count offset : Nat}
  {own : Tree} {id : NodeId}

theorem hosts_front (h : whole.Joined front back lines shift count)
    (hsize : front.tree.size ≤ whole.tree.size) (hown : front.tree.Hosts own offset) :
    whole.tree.Hosts own offset := by
  have hin {id : Nat} (hid : id < own.size) : offset + id < front.tree.size :=
    Nat.lt_of_lt_of_le (Nat.add_lt_add_left hid _) hown.fits
  have hnot {id : Nat} (hne : id ≠ Tree.root) : offset + id ≠ Tree.root :=
    fun hzero => hne (Nat.eq_zero_of_add_eq_zero_left hzero)
  refine ⟨hown.forward, Nat.le_trans hown.fits hsize, fun id hne hid => ?_, fun id hne hid => ?_⟩
  · rw [h.label?_front (hnot hne) (hin hid), hown.label? id hne hid]
  · rw [h.children_front (hnot hne) (hin hid), hown.children id hne hid]

theorem hosts_back (h : whole.Joined front back lines shift count) (hback : back.tree.Forward) :
    whole.tree.Hosts back.tree shift :=
  ⟨hback, Nat.le_of_eq h.size.symm, fun _ hne _ => h.label?_back hne,
    fun _ hne _ => h.children_back hne⟩

end Script.Joined

section Parse

variable {lines : List String} {script preamble front back whole : Script} {parts : List Part}
  {part : Part} {shift count : Nat}

theorem aimed_of_ok {options : Options} {checker : Checker}
    (h : (parseLines options checker lines).result = .ok script) : script.tree.Aimed := by
  obtain ⟨_, _, _, hpruned⟩ := exists_pruned_of_ok h
  intro id span key target hnode
  exact hpruned.find?_eq_of_jump hnode

theorem forward_of_ok {options : Options}
    (h : (parseLines options .lenient lines).result = .ok script) : script.tree.Forward := by
  obtain ⟨_, _, hsettled⟩ := settled_of_ok h
  rw [hsettled.tree_lenient]
  exact hsettled.drawn.shaped.forward

private theorem Script.assembled_nil (h : (parseLines {} .lenient lines).result = .ok script)
    (hnone : ∀ key, script.tree.find? key = none) : script.Assembled script [] := by
  refine ⟨aimed_of_ok h, (linked_of_ok h).root, (forward_of_ok h).hosts, ?_, fun key _ => hnone key,
    [], (List.append_nil _).symm, iff_of_true rfl rfl, ?_⟩
  · intro part hpart
    contradiction
  · intro id hid
    contradiction

theorem Script.Assembled.append (h : front.Assembled preamble parts)
    (hjoined : whole.Joined front back lines (front.tree.size - 1) count)
    (hfront : front.tree.Forward) (hwhole : (parseLines {} .lenient lines).result = .ok whole)
    (hback : (parseLines {} .lenient part.lines).result = .ok back)
    (hkeys : ∀ key, back.tree.find? key = none ↔ key ≠ part.key)
    (hfirst : ∃ rest, back.tree.children Tree.root = 1 :: rest ∧ back.tree.isScope 1 = true)
    (hfree : part.key ∉ parts.map Part.key) : whole.Assembled preamble (parts ++ [part]) := by
  obtain ⟨rest, hchildren, hscope⟩ := hfirst
  have hsize : front.tree.size ≤ whole.tree.size := by
    have hin := (forward_of_ok hback _ 1 (hchildren ▸ List.mem_cons_self)).2
    rw [hjoined.size]
    omega
  constructor
  · exact aimed_of_ok hwhole
  · exact (linked_of_ok hwhole).root
  · exact hjoined.hosts_front hsize h.front
  · intro other hother
    rcases List.mem_append.mp hother with hold | hnew
    · obtain ⟨own, offset, id, hown, hhosts, hfind, hplace⟩ := h.part other hold
      refine ⟨own, offset, id, hown, hjoined.hosts_front hsize hhosts, hfind, ?_⟩
      rw [hjoined.find?, hplace]
      rfl
    · obtain rfl := List.mem_singleton.mp hnew
      obtain ⟨id, hid⟩ := Option.ne_none_iff_exists'.mp
        (mt (hkeys other.key).mp (not_not_intro rfl))
      refine ⟨back, _, id, hback, hjoined.hosts_back (forward_of_ok hback), hid, ?_⟩
      rw [hjoined.find?, h.unnamed _ hfree, hid]
      rfl
  · intro key hkey
    rw [List.map_append, List.mem_append, not_or] at hkey
    have hother : key ≠ part.key := fun heq => hkey.2 (heq ▸ List.mem_cons_self)
    rw [hjoined.find?, h.unnamed key hkey.1, (hkeys key).mpr hother]
    rfl
  · obtain ⟨sections, hroot, _, hhead⟩ := h.children_root
    refine ⟨sections ++ (back.tree.children Tree.root).map (front.tree.size - 1 + ·), ?_, ?_, ?_⟩
    · rw [hjoined.children_root, hroot, List.append_assoc]
    · rw [hchildren]
      exact iff_of_false (List.append_ne_nil_of_right_ne_nil _ (List.cons_ne_nil _ _))
        (List.append_ne_nil_of_right_ne_nil _ (List.cons_ne_nil part []))
    · intro id hid
      cases sections with
      | nil =>
        rw [hchildren] at hid
        obtain rfl := Option.some.inj hid
        rw [Tree.isScope_eq, hjoined.label?_back Nat.one_ne_zero, ← Tree.isScope_eq]
        exact hscope
      | cons first others =>
        obtain rfl := Option.some.inj hid
        have hmem : first ∈ front.tree.children Tree.root := by
          rw [hroot]
          exact List.mem_append_right _ List.mem_cons_self
        obtain ⟨hpos, hin⟩ := hfront _ _ hmem
        rw [Tree.isScope_eq, hjoined.label?_front (Nat.ne_of_gt hpos) hin, ← Tree.isScope_eq]
        exact hhead first rfl

theorem exists_assembled {lines : List String} {parts : List Part}
    (hpreamble : ∀ number, Progress.declaredAt? {} lines number = none)
    (hparts : ∀ part ∈ parts, part.Alone) (hnames : (parts.map Part.key).Nodup) :
    ∃ preamble script, (parseLines {} .lenient lines).result = .ok preamble ∧
      (parseLines {} .lenient (lines ++ parts.flatMap Part.lines)).result = .ok script ∧
      script.Assembled preamble parts := by
  induction parts using List.reverseRecOn with
  | nil =>
    obtain ⟨script, hscript, hnone⟩ := exists_unnamed hpreamble
    refine ⟨script, script, hscript, ?_, Script.assembled_nil hscript hnone⟩
    rw [List.flatMap_nil, List.append_nil]
    exact hscript
  | append_singleton parts part ih =>
    rw [List.map_append, List.nodup_append] at hnames
    obtain ⟨hbefore, _, hfree⟩ := hnames
    obtain ⟨preamble, front, hfirst, hfront, hassembled⟩ :=
      ih (fun other hother => hparts other (List.mem_append_left _ hother)) hbefore
    have halone := hparts part (List.mem_append_right _ List.mem_cons_self)
    obtain ⟨back, hback, hkeys, hchildren⟩ := halone.exists_script
    have hnot : part.key ∉ parts.map Part.key := fun hmem =>
      hfree _ hmem _ List.mem_cons_self rfl
    have hapart (key : String) : front.tree.find? key = none ∨ back.tree.find? key = none := by
      by_cases hkey : key = part.key
      · exact .inl (hassembled.unnamed key (hkey ▸ hnot))
      · exact .inr ((hkeys key).mpr hkey)
    obtain ⟨line, hheads⟩ := halone.heads
    obtain ⟨whole, hwhole, hjoined⟩ := exists_joined_of_apart rfl hheads hfront hback hapart
    refine ⟨preamble, whole, hfirst, ?_, hassembled.append hjoined (forward_of_ok hfront) hwhole
      hback hkeys hchildren hnot⟩
    rw [List.flatMap_append, List.flatMap_singleton, ← List.append_assoc]
    exact hwhole

theorem Script.Assembled.find? {first second : Script} {others : List Part}
    (h : first.Assembled preamble parts) (hother : second.Assembled preamble others)
    (hperm : parts.Perm others) (key : String) :
    Option.Rel (first.tree.Twins second.tree) (first.tree.find? key) (second.tree.find? key) := by
  by_cases hkey : key ∈ parts.map Part.key
  · obtain ⟨part, hpart, rfl⟩ := List.mem_map.mp hkey
    obtain ⟨own, shift, id, hown, hhosts, hid, hfind⟩ := h.part part hpart
    obtain ⟨copy, count, found, hcopy, hstands, hfound, hplace⟩ :=
      hother.part part (hperm.mem_iff.mp hpart)
    obtain rfl := Except.ok.inj (hown.symm.trans hcopy)
    obtain rfl := Option.some.inj (hid.symm.trans hfound)
    obtain ⟨_, _, _, hpruned⟩ := exists_pruned_of_ok hown
    obtain ⟨hne, hlabel⟩ := hpruned.label?_of_find? hid
    rw [hfind, hplace]
    exact .some (.copy hhosts hstands hne (Tree.lt_size_of_label? hlabel))
  · have hmissing : key ∉ others.map Part.key := fun hmem =>
      hkey ((hperm.map Part.key).mem_iff.mpr hmem)
    rw [h.unnamed key hkey, hother.unnamed key hmissing]
    exact .none

/-- The order of the parts does not matter to what is played. -/
theorem Script.Assembled.alike {first second : Script} {others : List Part}
    (h : first.Assembled preamble parts) (hother : second.Assembled preamble others)
    (hperm : parts.Perm others) : first.tree.Alike second.tree := by
  refine ⟨?_, h.isScope_root.trans hother.isScope_root.symm, h.find? hother hperm, h.aimed,
    hother.aimed⟩
  obtain ⟨sections, hfirst, hempty, hhead⟩ := h.children_root
  obtain ⟨more, hsecond, hnone, hnext⟩ := hother.children_root
  have hbehind : first.tree.Abreast second.tree sections more := by
    have hboth : sections = [] ↔ more = [] := by
      rw [hempty, hnone]
      exact ⟨fun hnil => (hnil ▸ hperm).nil_eq.symm, fun hnil => (hnil ▸ hperm).eq_nil⟩
    cases sections with
    | nil =>
      rw [hboth.mp rfl]
      exact .done
    | cons id rest =>
      cases more with
      | nil => exact absurd (hboth.mpr rfl) (List.cons_ne_nil id rest)
      | cons => exact .halt (hhead _ rfl) (hnext _ rfl)
  rw [hfirst, hsecond]
  refine hbehind.append (List.forall₂_same.mpr fun child hchild => ?_)
  obtain ⟨hpos, hin⟩ := h.front.forward _ _ hchild
  have htwins := Tree.Twins.copy h.front hother.front (Nat.ne_of_gt hpos) hin
  rwa [Nat.zero_add] at htwins

end Parse

/-- Sections may be declared in any order: whatever the host answers, every session is the same,
from the start as from any section. -/
theorem session_eq_of_perm {lines : List String} {parts others : List Part}
    (hpreamble : ∀ number, Progress.declaredAt? {} lines number = none)
    (hparts : ∀ part ∈ parts, part.Alone) (hnames : (parts.map Part.key).Nodup)
    (hperm : parts.Perm others) :
    ∃ first second,
      (parseLines {} .lenient (lines ++ parts.flatMap Part.lines)).result = .ok first ∧
      (parseLines {} .lenient (lines ++ others.flatMap Part.lines)).result = .ok second ∧
      ∀ host start calls, Playback.session host first.tree start calls =
        Playback.session host second.tree start calls := by
  obtain ⟨preamble, first, hpreambleScript, hfirst, hassembled⟩ :=
    exists_assembled hpreamble hparts hnames
  obtain ⟨other, second, hother, hsecond, hreassembled⟩ := exists_assembled hpreamble
    (fun part hpart => hparts part (hperm.mem_iff.mpr hpart))
    ((hperm.map Part.key).nodup_iff.mp hnames)
  obtain rfl := Except.ok.inj (hpreambleScript.symm.trans hother)
  exact ⟨first, second, hfirst, hsecond,
    fun host start calls => (hassembled.alike hreassembled hperm).session_eq host start calls⟩

/-- A jump to a section that offers a choice and jumps back, with both sections in either order. -/
theorem session_eq_of_swapped :
    let lines := ["-> a", "\t= c"]
    let parts : List Part := [⟨"a", ["= a", "hi", "-> b"]⟩, ⟨"b", ["= b", "* go", "\t<-", "* stay"]⟩]
    let host : Host := ⟨fun _ _ _ => true⟩
    (∀ number, Progress.declaredAt? {} lines number = none) ∧ (∀ part ∈ parts, part.Alone) ∧
      (parts.map Part.key).Nodup ∧ parts.Perm parts.reverse ∧
      ∃ first second,
        (parseLines {} .lenient (lines ++ parts.flatMap Part.lines)).result = .ok first ∧
        (parseLines {} .lenient (lines ++ parts.reverse.flatMap Part.lines)).result = .ok second ∧
        (∀ host start calls, Playback.session host first.tree start calls =
          Playback.session host second.tree start calls) ∧
        Playback.session host second.tree none [.step 9, .step 9, .choose 0, .step 9] =
          .ok ([.stepped true, .stepped true, .done, .stepped false],
            [.line "hi", .offered [⟨"go", false⟩, ⟨"stay", false⟩]]) := by
  intro lines parts host
  have hpreamble (number : Nat) : Progress.declaredAt? {} lines number = none := by
    have hin : ∀ number < lines.length, 0 ≤ number →
        Progress.declaredAt? {} lines number = none := by decide +kernel
    exact Progress.declaredAt?_eq_none hin (Nat.zero_le number)
  have hparts : ∀ part ∈ parts, part.Alone := by
    intro part hpart
    rcases List.mem_pair.mp hpart with rfl | rfl
    · refine ⟨⟨⟨0, [], .scope, " a".toList⟩, by decide +kernel, rfl, rfl, by decide +kernel⟩, ?_⟩
      intro number hne
      exact Progress.declaredAt?_eq_none (by decide +kernel) (Nat.one_le_iff_ne_zero.mpr hne)
    · refine ⟨⟨⟨0, [], .scope, " b".toList⟩, by decide +kernel, rfl, rfl, by decide +kernel⟩, ?_⟩
      intro number hne
      exact Progress.declaredAt?_eq_none (by decide +kernel) (Nat.one_le_iff_ne_zero.mpr hne)
  have hnames : (parts.map Part.key).Nodup := by decide
  have hperm : parts.Perm parts.reverse := (List.reverse_perm parts).symm
  obtain ⟨first, second, hfirst, hsecond, hsame⟩ :=
    session_eq_of_perm hpreamble hparts hnames hperm
  have hplayed : (parseLines {} .lenient
      (lines ++ parts.reverse.flatMap Part.lines)).result.toOption.map (fun script =>
        (Playback.session host script.tree none [.step 9, .step 9, .choose 0, .step 9]).toOption) =
      some (some ([.stepped true, .stepped true, .done, .stepped false],
        [.line "hi", .offered [⟨"go", false⟩, ⟨"stay", false⟩]])) := by
    decide +kernel
  obtain ⟨found, hparsed, hsession⟩ := exists_ok_of_map_toOption hplayed
  obtain rfl := Except.ok.inj (hsecond.symm.trans hparsed)
  refine ⟨hpreamble, hparts, hnames, hperm, first, second, hfirst, hsecond, hsame, ?_⟩
  obtain ⟨result, hresult, rfl⟩ := exists_ok_of_map_toOption (f := id)
    ((congrFun Option.map_id _).trans hsession)
  exact hresult

end Dialogue
