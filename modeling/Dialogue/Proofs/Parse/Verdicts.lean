import Dialogue.Proofs.Parse.Scripts

/-! Verdicts. Every command and every condition of a script is put to the checker, each at a
place of its own in the list of queries. What is accepted stays in the tree; a condition that
is rejected never gets there, and a command that is rejected is cut off. -/
namespace Dialogue

/-- The verdict on the query at a place, given all that was asked before. -/
def Checker.Judges (checker : Checker) (asked : Array Query) (place : Nat) (query : Query)
    (verdict : Option Rejection) : Prop :=
  ∃ before after, asked = before.push query ++ after ∧ before.size = place ∧
    checker.rejects before query = verdict

def Content.command? : Content → Option String
  | block (.command text) _ => some text
  | _ => none

def Growth.condition? : Growth → Option String
  | choice _ _ condition => condition
  | _ => none

def Content.query? (content : Content) : Option Query :=
  (content.command?.map .command).or (content.condition?.map .condition)

namespace Checker.Judges

variable {checker : Checker} {asked more : Array Query} {place : Nat} {query other : Query}
  {verdict verdict' : Option Rejection}

theorem push (checker : Checker) (asked : Array Query) (query : Query) :
    checker.Judges (asked.push query) asked.size query (checker.rejects asked query) :=
  ⟨asked, #[], by simp, rfl, rfl⟩

theorem append (h : checker.Judges asked place query verdict) (more : Array Query) :
    checker.Judges (asked ++ more) place query verdict := by
  obtain ⟨before, after, rfl, hplace, hverdict⟩ := h
  exact ⟨before, after ++ more, by rw [Array.append_assoc], hplace, hverdict⟩

private theorem lt (h : checker.Judges asked place query verdict) : place < asked.size := by
  obtain ⟨before, after, rfl, rfl, _⟩ := h
  rw [Array.size_append, Array.size_push]
  omega

theorem eq (h : checker.Judges asked place query verdict)
    (hother : checker.Judges asked place other verdict') : query = other ∧ verdict = verdict' := by
  obtain ⟨before, after, rfl, rfl, rfl⟩ := h
  obtain ⟨early, late, heq, hsize, rfl⟩ := hother
  have hlists := congrArg Array.toList heq
  simp only [Array.toList_append, Array.toList_push, List.append_assoc] at hlists
  obtain ⟨hbefore, hrest⟩ := List.append_inj hlists (by simp [hsize])
  obtain rfl := Array.toList_inj.mp hbefore
  obtain rfl := (List.cons.inj hrest).1
  exact ⟨rfl, rfl⟩

end Checker.Judges

namespace Review

variable {checker : Checker} {tree : Tree} {review : Review} {ids : List NodeId} {id : NodeId}

theorem check_of_command (checker : Checker) (review : Review) {text : String}
    (h : (tree.label? id).bind Content.command? = some text) :
    (review.check checker tree id).journal.asked = review.journal.asked.push (.command text) ∧
    (review.check checker tree id).rejected =
      if (checker.rejects review.journal.asked (.command text)).isSome then id :: review.rejected
      else review.rejected := by
  rw [Tree.label?_eq] at h
  unfold check
  cases hnode : tree.get? id with
  | none => rw [hnode] at h; contradiction
  | some node =>
    obtain ⟨span, content⟩ := node
    rw [hnode] at h
    cases content with
    | leaf leaf => exact nomatch h
    | block block children =>
      cases block with
      | scope => exact nomatch h
      | choice => exact nomatch h
      | command found =>
        obtain rfl : found = text := Option.some.inj h
        simp only [Journal.ask]
        cases checker.rejects review.journal.asked (.command found) with
        | none => exact ⟨rfl, rfl⟩
        | some rejection => exact ⟨rfl, rfl⟩

theorem check_of_not_command (h : (tree.label? id).bind Content.command? = none) :
    review.check checker tree id = review := by
  rw [Tree.label?_eq] at h
  unfold check
  split
  next hnode =>
    rw [hnode] at h
    exact nomatch h
  next => rfl

theorem mem_rejected_check (checker : Checker) (tree : Tree) (review : Review)
    (id other : NodeId) :
    (other ∈ review.rejected → other ∈ (review.check checker tree id).rejected) ∧
    (other ∈ (review.check checker tree id).rejected → other ∈ review.rejected ∨
      (other = id ∧ ((tree.label? other).bind Content.command?).isSome = true)) := by
  cases hlabel : (tree.label? id).bind Content.command? with
  | none =>
    rw [check_of_not_command hlabel]
    exact ⟨fun h => h, fun h => .inl h⟩
  | some text =>
    rw [(check_of_command checker review hlabel).2]
    split
    · refine ⟨List.mem_cons_of_mem id, fun h => ?_⟩
      rcases List.mem_cons.mp h with rfl | hold
      · exact .inr ⟨rfl, by rw [hlabel]; rfl⟩
      · exact .inl hold
    · exact ⟨fun h => h, fun h => .inl h⟩

theorem mem_rejected_foldl_check (checker : Checker) (tree : Tree) (review : Review)
    (ids : List NodeId) (id : NodeId) :
    (id ∈ review.rejected → id ∈ (ids.foldl (check checker tree) review).rejected) ∧
    (id ∈ (ids.foldl (check checker tree) review).rejected → id ∈ review.rejected ∨
      (id ∈ ids ∧ ((tree.label? id).bind Content.command?).isSome = true)) := by
  induction ids generalizing review with
  | nil => exact ⟨fun h => h, fun h => .inl h⟩
  | cons first rest ih =>
    obtain ⟨hkept, hnew⟩ := ih (review.check checker tree first)
    obtain ⟨hfirst, hback⟩ := mem_rejected_check checker tree review first id
    refine ⟨fun h => hkept (hfirst h), fun h => ?_⟩
    rcases hnew h with hid | ⟨hid, hcommand⟩
    · rcases hback hid with hold | ⟨rfl, hcommand⟩
      · exact .inl hold
      · exact .inr ⟨List.mem_cons_self, hcommand⟩
    · exact .inr ⟨List.mem_cons_of_mem first hid, hcommand⟩

end Review
namespace Sketch

variable {entries : List Entry} {id : Nat}

def conditionAt? (entries : List Entry) (id : Nat) : Option String :=
  (labelAt? entries id).bind Content.condition?

theorem conditionAt?_length (entries : List Entry) : conditionAt? entries entries.length = none := by
  rw [conditionAt?, labelAt?, List.getElem?_eq_none (Nat.le_refl _)]
  rfl

private theorem conditionAt?_append (entry : Entry) : conditionAt? (entries ++ [entry]) id =
    if id = entries.length then entry.mark.label.condition? else conditionAt? entries id := by
  split
  next heq =>
    rw [heq, conditionAt?, labelAt?_length]
    rfl
  next hne =>
    rw [conditionAt?, conditionAt?]
    rcases Nat.lt_or_gt_of_ne hne with hlt | hgt
    · rw [labelAt?_append hlt]
    · rw [labelAt?, labelAt?, List.getElem?_eq_none (Nat.le_of_lt hgt), List.getElem?_eq_none]
      rw [List.length_append, List.length_singleton]
      exact hgt

theorem conditionAt?_grow (entries : List Entry) (depth number : Nat) (growth : Growth) (id : Nat) :
    conditionAt? (grow entries depth number growth) id =
      if id = entries.length then growth.condition? else conditionAt? entries id := by
  cases growth with
  | nothing =>
    split
    next heq =>
      subst heq
      exact conditionAt?_length entries
    next => rfl
  | leaf => exact conditionAt?_append _
  | choice => exact conditionAt?_append _
  | scope => exact conditionAt?_append _
  | command _ text =>
    simp only [grow]
    split
    next other hother =>
      have hsame : conditionAt? (entries.modify other (Entry.extend text)) id =
          conditionAt? entries id := by
        rw [conditionAt?, conditionAt?, labelAt?_extend]
        split
        · cases labelAt? entries id with
          | none => rfl
          | some label =>
            cases label with
            | leaf => rfl
            | block block => cases block <;> rfl
        · rfl
      rw [hsame]
      split
      next heq =>
        subst heq
        exact conditionAt?_length entries
      next => rfl
    next => exact conditionAt?_append _

structure Vetted (checker : Checker) (entries : List Entry) (asked : Array Query)
    (place : Nat → Nat) : Prop where
  judged : ∀ id condition, conditionAt? entries id = some condition →
    checker.Judges asked (place id) (.condition condition) none
  injective : ∀ id other, (conditionAt? entries id).isSome = true →
    (conditionAt? entries other).isSome = true → place id = place other → id = other

namespace Vetted

variable {checker : Checker} {asked : Array Query} {place : Nat → Nat} {depth number : Nat}
  {growth : Growth}

theorem lt (h : Vetted checker entries asked place) (hid : (conditionAt? entries id).isSome = true) :
    place id < asked.size := by
  obtain ⟨condition, hcondition⟩ := Option.isSome_iff_exists.mp hid
  exact (h.judged id condition hcondition).lt

theorem grow (h : Vetted checker entries asked place) (more : Array Query)
    (hcondition : growth.condition? = none) :
    Vetted checker (grow entries depth number growth) (asked ++ more) place := by
  have hsame (id : Nat) : conditionAt? (Sketch.grow entries depth number growth) id =
      conditionAt? entries id := by
    rw [conditionAt?_grow, hcondition]
    split
    next heq => rw [heq, conditionAt?_length]
    next => rfl
  constructor
  · intro id condition hid
    rw [hsame] at hid
    exact (h.judged id condition hid).append more
  · intro id other hid hother
    rw [hsame] at hid hother
    exact h.injective id other hid hother

end Vetted
end Sketch

namespace Reading

variable {options : Options} {checker : Checker} {lines : List String} {reading : Reading}

end Reading

/-- The place of each command and each condition of a tree in the list of queries. The nodes
that are cut off are those with a verdict against them. -/
structure Tree.Vetted (tree : Tree) (checker : Checker) (asked : Array Query)
    (rejected : List NodeId) (place : NodeId → Nat) : Prop where
  judged : ∀ id query, (tree.label? id).bind Content.query? = some query →
    ∃ verdict, checker.Judges asked (place id) query verdict ∧ (verdict = none ↔ id ∉ rejected)
  injective : ∀ id other, ((tree.label? id).bind Content.query?).isSome = true →
    ((tree.label? other).bind Content.query?).isSome = true → place id = place other → id = other
  command : ∀ id ∈ rejected, ((tree.label? id).bind Content.command?).isSome = true

private theorem Tree.Vetted.congr {tree other : Tree} {checker : Checker} {asked : Array Query}
    {rejected : List NodeId} {place : NodeId → Nat}
    (h : tree.Vetted checker asked rejected place)
    (hlabel : ∀ id, other.label? id = tree.label? id) :
    other.Vetted checker asked rejected place := by
  constructor
  · intro id query hquery
    rw [hlabel] at hquery
    exact h.judged id query hquery
  · intro id second hid hsecond
    rw [hlabel] at hid hsecond
    exact h.injective id second hid hsecond
  · intro id hid
    rw [hlabel]
    exact h.command id hid

end Dialogue
