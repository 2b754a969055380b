import Dialogue.Proofs.Parse.Scripts
import Dialogue.Proofs.Playback.Adequacy

/-! The meaning of scripts. Whatever was parsed, the cursors over its tree play what the
recursion over siblings plays. -/
namespace Dialogue
namespace Playback

/-- Sessions from a cursor do what evaluating siblings says, whatever the picks are: they
come to an end together, they wait for a pick together, and neither shows anything that the
other does not, also where there is no end. -/
structure Adequate (host : Host) (tree : Tree) (cursor : Cursor) (siblings : List NodeId)
    (picks : List Nat) : Prop where
  ends : ∀ scene,
    (∃ fuel ending, ending.isOver = true ∧
      tree.evaluate host fuel siblings { picks } = (ending, scene)) ↔
    ∃ last moves next, Driven host tree { cursor } picks last scene.picks ∧
      last.step host tree moves = some (.ok false, next) ∧ next.events = scene.events
  waiting : ∀ offered scene,
    (∃ fuel, tree.evaluate host fuel siblings { picks } = (.waiting offered, scene)) ↔
    ∃ last, Driven host tree { cursor } picks last [] ∧ scene.picks = [] ∧
      last.cursor.pending = offered ∧ offered ≠ [] ∧ last.events = scene.events
  shown : ∀ last rest, Driven host tree { cursor } picks last rest →
    ∃ fuel, last.events.toList <+:
      (tree.evaluate host fuel siblings { picks }).2.events.toList
  reached : ∀ fuel, ∃ last rest moves, Driven host tree { cursor } picks last rest ∧
    (last.perform host tree (.step moves)).events =
      (tree.evaluate host fuel siblings { picks }).2.events

end Playback

/-- Cursors play a script as it is evaluated, from the root or from any section. -/
theorem playback_adequate {options : Options} {checker : Checker} {lines : List String}
    {script : Script} (hparse : (parseLines options checker lines).result = .ok script)
    {cursor : Cursor} {siblings : List NodeId}
    (hopens : Playback.Opens script.tree cursor siblings) (host : Host) (picks : List Nat) :
    Playback.Adequate host script.tree cursor siblings picks := by
  have htree := linked_of_ok hparse
  constructor
  · intro scene
    exact Playback.evaluate_isOver_iff htree hopens
  · intro offered scene
    exact Playback.evaluate_waiting_iff htree hopens
  · intro last rest hdriven
    exact Playback.events_prefix_evaluate htree hopens hdriven
  · intro fuel
    exact Playback.exists_events_eq_evaluate htree hopens fuel

/-- Of two choices one has a guard that does not hold. The other is picked, its body jumps into a
section that returns, and the text behind the choices is played. -/
theorem playback_adequate_of_choice :
    let host : Host := ⟨fun _ text _ => text != "closed"⟩
    let lines := ["* leave #closed#", "* ask #open#", "\t-> S", "\tbye", "end", "= S", "hi", "<-"]
    ∃ script, (parseLines {} .lenient lines).result = .ok script ∧
      Playback.Adequate host script.tree .new (script.tree.children Tree.root) [0] ∧
      (script.tree.evaluate host 20 (script.tree.children Tree.root) { picks := [0] }).2.events =
        #[.evaluated "closed" true false, .evaluated "open" true true, .offered [⟨"ask", true⟩],
          .line "hi", .line "bye", .line "end"] := by
  intro host lines
  have hplayed : (parseLines {} .lenient lines).result.toOption.map (fun script =>
      (script.tree.evaluate host 20 (script.tree.children Tree.root) { picks := [0] }).2.events) =
      some #[.evaluated "closed" true false, .evaluated "open" true true, .offered [⟨"ask", true⟩],
        .line "hi", .line "bye", .line "end"] := by
    decide +kernel
  obtain ⟨script, hparse, hevents⟩ := exists_ok_of_map_toOption hplayed
  exact ⟨script, hparse, playback_adequate hparse .new host [0], hevents⟩

end Dialogue
