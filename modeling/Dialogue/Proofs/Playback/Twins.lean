import Dialogue.Proofs.Parse.Scripts
import Dialogue.Proofs.Playback.Mirror
import Dialogue.Proofs.Tree.Traversal

/-! Twins. Two trees may hold the same nodes under different numbers. Playing them is the same, move
by move, as long as names lead to twins and the siblings that are played stand side by side. -/
namespace Dialogue
namespace Tree

/-- The nodes of one tree stand in another, so many numbers further on. Its root does not. -/
structure Hosts (tree own : Tree) (shift : Nat) : Prop where
  forward : own.Forward
  fits : shift + own.size ≤ tree.size
  label? : ∀ id, id ≠ root → id < own.size → tree.label? (shift + id) = own.label? id
  children : ∀ id, id ≠ root → id < own.size →
    tree.children (shift + id) = (own.children id).map (shift + ·)

/-- Nodes of two trees that are the same node of a third one. -/
inductive Twins (first second : Tree) : NodeId → NodeId → Prop
  | copy {own : Tree} {shift count : Nat} {id : NodeId} (hfirst : first.Hosts own shift)
      (hsecond : second.Hosts own count) (hne : id ≠ root) (hid : id < own.size) :
      Twins first second (shift + id) (count + id)

/-- Siblings that are played alike. Nothing behind a section is ever played. -/
inductive Abreast (first second : Tree) : List NodeId → List NodeId → Prop
  | done : Abreast first second [] []
  | halt {id other : NodeId} {ids others : List NodeId} (hfirst : first.isScope id = true)
      (hsecond : second.isScope other = true) : Abreast first second (id :: ids) (other :: others)
  | next {id other : NodeId} {ids others : List NodeId} (htwins : first.Twins second id other)
      (hrest : Abreast first second ids others) : Abreast first second (id :: ids) (other :: others)

def Aimed (tree : Tree) : Prop :=
  ∀ id span key target, tree.get? id = some ⟨span, .leaf (.jump key target)⟩ →
    tree.find? key = target

structure Alike (first second : Tree) : Prop where
  root : first.Abreast second (first.children root) (second.children root)
  isScope_root : first.isScope Tree.root = second.isScope Tree.root
  find? : ∀ key, Option.Rel (first.Twins second) (first.find? key) (second.find? key)
  aimed_first : first.Aimed
  aimed_second : second.Aimed

variable {first second : Tree} {id other : NodeId} {ids others : List NodeId}

namespace Twins

theorem label?_eq (h : first.Twins second id other) : first.label? id = second.label? other := by
  obtain ⟨hfirst, hsecond, hne, hid⟩ := h
  rw [hfirst.label? _ hne hid, hsecond.label? _ hne hid]

private theorem isChoice_eq (h : first.Twins second id other) :
    first.isChoice id = second.isChoice other := by
  rw [Tree.isChoice_eq, Tree.isChoice_eq, h.label?_eq]

theorem children (h : first.Twins second id other) :
    List.Forall₂ (first.Twins second) (first.children id) (second.children other) := by
  obtain @⟨own, shift, count, id, hfirst, hsecond, hne, hid⟩ := h
  rw [hfirst.children _ hne hid, hsecond.children _ hne hid, List.forall₂_map_left_iff,
    List.forall₂_map_right_iff, List.forall₂_same]
  intro child hchild
  obtain ⟨hlt, hin⟩ := hfirst.forward id child hchild
  exact .copy hfirst hsecond (Nat.ne_of_gt (Nat.zero_lt_of_lt hlt)) hin

end Twins

namespace Abreast

theorem append {rest more : List NodeId} (h : first.Abreast second rest more)
    (htwins : List.Forall₂ (first.Twins second) ids others) :
    first.Abreast second (ids ++ rest) (others ++ more) := by
  induction htwins with
  | nil => exact h
  | cons hhead _ ih => exact .next hhead ih

private theorem of_forall₂ (h : List.Forall₂ (first.Twins second) ids others) :
    first.Abreast second ids others := by
  rw [← ids.append_nil, ← others.append_nil]
  exact Abreast.done.append h

theorem choices (h : first.Abreast second ids others) :
    List.Forall₂ (first.Twins second) (ids.takeWhile first.isChoice)
        (others.takeWhile second.isChoice) ∧
      first.Abreast second (ids.drop (ids.takeWhile first.isChoice).length)
        (others.drop (others.takeWhile second.isChoice).length) := by
  have hscope {tree : Tree} {id : NodeId} (hid : tree.isScope id = true) :
      ¬ tree.isChoice id = true := fun hchoice =>
    Bool.false_ne_true ((isScope_of_isChoice hchoice).symm.trans hid)
  induction h with
  | done => exact ⟨.nil, .done⟩
  | halt hfirst hsecond =>
    rw [List.takeWhile_cons_of_neg (hscope hfirst), List.takeWhile_cons_of_neg (hscope hsecond)]
    exact ⟨.nil, .halt hfirst hsecond⟩
  | @next id other ids others htwins hrest ih =>
    have hsame := htwins.isChoice_eq
    cases hchoice : first.isChoice id with
    | true =>
      rw [List.takeWhile_cons_of_pos hchoice, List.takeWhile_cons_of_pos (hsame ▸ hchoice)]
      exact ⟨.cons htwins ih.1, ih.2⟩
    | false =>
      rw [hchoice] at hsame
      rw [List.takeWhile_cons_of_neg (by rw [hchoice]; exact Bool.false_ne_true),
        List.takeWhile_cons_of_neg (by rw [← hsame]; exact Bool.false_ne_true)]
      exact ⟨.nil, .next htwins hrest⟩

end Abreast

def twins (first second : Tree) : Pairing := ⟨first.Twins second, first.Abreast second⟩

private theorem Abreast.ready (h : first.Abreast second ids others) :
    (twins first second).Ready first second ids others := by
  obtain ⟨hchoices, hbehind⟩ := h.choices
  cases h with
  | done => exact .done
  | halt hfirst hsecond => exact .halt hfirst hsecond
  | next htwins hrest => exact .next htwins hrest hchoices hbehind

theorem Alike.exists_nodes (h : first.Alike second) (htwins : first.Twins second id other) :
    ∃ node twin, first.get? id = some node ∧ second.get? other = some twin ∧
      (twins first second).Contents node.content twin.content := by
  have hlabel := htwins.label?_eq
  have hchildren := htwins.children
  have hin : id < first.size := by
    obtain ⟨hfirst, _, _, hid⟩ := htwins
    exact Nat.lt_of_lt_of_le (Nat.add_lt_add_left hid _) hfirst.fits
  obtain ⟨node, hnode⟩ : ∃ node, first.get? id = some node := ⟨_, Array.getElem?_eq_getElem hin⟩
  rw [Tree.label?_eq, Tree.label?_eq, hnode] at hlabel
  obtain ⟨twin, htwin, hbare⟩ := Option.map_eq_some_iff.mp hlabel.symm
  rw [children_eq, children_eq, hnode, htwin] at hchildren
  refine ⟨node, twin, hnode, htwin, .of_bare hbare (.of_forall₂ hchildren) (fun _ => ?_) ?_⟩
  · have hlength : node.content.children.length = twin.content.children.length :=
      hchildren.length_eq
    rw [← List.length_eq_zero_iff, ← List.length_eq_zero_iff, hlength]
  · intro key target aim hjump hcopy
    obtain ⟨span, content⟩ := node
    obtain ⟨start, copy⟩ := twin
    obtain rfl : content = _ := hjump
    obtain rfl : copy = _ := hcopy
    have htarget := h.find? key
    rwa [h.aimed_first _ _ _ _ hnode, h.aimed_second _ _ _ _ htwin] at htarget

theorem Alike.paired (h : first.Alike second) : first.Paired second (twins first second) where
  nil := .done
  node htwins := by
    obtain ⟨node, twin, hnode, htwin, hsame⟩ := h.exists_nodes htwins
    rw [hnode, htwin]
    exact .some hsame
  find? := h.find?

end Tree

namespace Playback

variable {first second : Tree} {playback twin : Playback}

theorem Mirrors.ready (h : playback.Mirrors (Tree.twins first second) first second twin) :
    Ready (Tree.twins first second) first second playback twin := by
  have hframes := h.frames
  unfold Ready
  generalize playback.cursor.frames = frames at hframes
  generalize twin.cursor.frames = others at hframes
  cases hframes with
  | nil => exact fun frame hframe => absurd hframe (Option.not_mem_none frame)
  | cons hframe _ =>
    rintro _ ⟨⟩ _ ⟨⟩
    exact Tree.Abreast.ready hframe.rest

theorem mirrors_run (htree : first.Alike second)
    (h : playback.Mirrors (Tree.twins first second) first second twin) (host : Host)
    (moves : Nat) :
    Option.Rel (fun result other => result.1 = other.1 ∧
          result.2.Mirrors (Tree.twins first second) first second other.2)
        (playback.run host first moves) (twin.run host second moves) ∧
      (playback.advance host first moves).Mirrors (Tree.twins first second) first second
        (twin.advance host second moves) := by
  induction moves generalizing playback twin with
  | zero => exact ⟨.none, h⟩
  | succ moves ih =>
    have hmove := mirrors_move htree.paired h host h.ready
    rw [run, run, advance, advance]
    generalize playback.move host first = move at hmove ⊢
    generalize twin.move host second = other at hmove ⊢
    rcases hmove with ⟨hnext⟩ | ⟨hnext⟩ | ⟨hnext⟩
    · exact ih hnext
    · exact ⟨.some ⟨rfl, hnext⟩, hnext⟩
    · exact ⟨.some ⟨rfl, hnext⟩, hnext⟩

theorem mirrors_perform (htree : first.Alike second)
    (h : playback.Mirrors (Tree.twins first second) first second twin) (host : Host)
    (call : Call) :
    playback.reply host first call = twin.reply host second call ∧
      (playback.perform host first call).Mirrors (Tree.twins first second) first second
        (twin.perform host second call) := by
  cases call with
  | step moves =>
    obtain ⟨hrun, hadvance⟩ := mirrors_run htree h host moves
    simp only [reply, step, perform, h.isWaiting_eq]
    by_cases hwaiting : twin.cursor.isWaiting
    · rw [if_pos hwaiting, if_pos hwaiting, if_pos hwaiting, if_pos hwaiting]
      exact ⟨rfl, h⟩
    · rw [if_neg hwaiting, if_neg hwaiting, if_neg hwaiting, if_neg hwaiting]
      refine ⟨?_, hadvance⟩
      generalize playback.run host first moves = result at hrun ⊢
      generalize twin.run host second moves = other at hrun ⊢
      cases hrun with
      | none => rfl
      | some hresult => exact congrArg Reply.stepped hresult.1
  | choose index =>
    simp only [reply, perform]
    rcases h.choose htree.paired index with
      ⟨misuse, hfirst, hsecond⟩ | ⟨next, after, hfirst, hsecond, hnext⟩
    · rw [hfirst, hsecond]
      exact ⟨rfl, h⟩
    · rw [hfirst, hsecond]
      exact ⟨rfl, hnext⟩

private theorem mirrors_calls (htree : first.Alike second)
    (h : playback.Mirrors (Tree.twins first second) first second twin) (host : Host)
    (calls : List Call) :
    playback.replies host first calls = twin.replies host second calls ∧
      (calls.foldl (perform host first) playback).Mirrors (Tree.twins first second) first second
        (calls.foldl (perform host second) twin) := by
  induction calls generalizing playback twin with
  | nil => exact ⟨rfl, h⟩
  | cons call calls ih =>
    obtain ⟨hreply, hnext⟩ := mirrors_perform htree h host call
    obtain ⟨hreplies, hlast⟩ := ih hnext
    exact ⟨by rw [replies, replies, hreply, hreplies], hlast⟩

end Playback

/-- Trees that are alike are played alike, from the start or from any section. -/
theorem Tree.Alike.session_eq {first second : Tree} (h : first.Alike second) (host : Host)
    (start : Option String) (calls : List Call) :
    Playback.session host first start calls = Playback.session host second start calls := by
  have hroot : (Frame.start Tree.root).Mirrors (twins first second) first second
      (.start Tree.root) := ⟨h.isScope_root, h.root⟩
  rw [Playback.session, Playback.session]
  rcases h.paired.start hroot start with
    ⟨misuse, hone, htwo⟩ | ⟨cursor, other, hone, htwo, hmirrors⟩
  · rw [hone, htwo]
    rfl
  · obtain ⟨hreplies, hlast⟩ := Playback.mirrors_calls h hmirrors host calls
    rw [hone, htwo]
    exact congrArg Except.ok (Prod.ext hreplies (congrArg Array.toList hlast.events))

end Dialogue
