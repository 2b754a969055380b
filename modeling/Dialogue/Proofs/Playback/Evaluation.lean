import Dialogue.Playback.Step

/-! The meaning of a dialogue, as a recursion over siblings instead of a stack of
frames. A body is played in full before the siblings behind it; how it ends says
whether they are played at all. -/
namespace Dialogue

/-- What the host has seen so far, and the picks that it has left to give. -/
structure Scene where
  events : Array Event := #[]
  picks : List Nat
  deriving Repr, DecidableEq

inductive Ending
  /-- Past the last sibling. -/
  | done
  /-- At a return. -/
  | returned
  /-- In front of a section, or in a section that was jumped into and ran out. -/
  | ended
  /-- At an offer for which no pick is left. -/
  | waiting (offered : List NodeId)
  /-- The fuel ran out on the way. -/
  | cut
  deriving Repr, DecidableEq

def Ending.isOver : Ending → Bool
  | done => true
  | returned => true
  | ended => true
  | _ => false

namespace Scene

def emit (scene : Scene) (event : Event) : Scene :=
  { scene with events := scene.events.push event }

def ask (host : Host) (scene : Scene) (text : String) (hasBody : Bool) : Bool × Scene :=
  let answer := host.answer scene.events text hasBody
  (answer, scene.emit (.evaluated text hasBody answer))

def sift (host : Host) (tree : Tree) (scene : Scene) : List NodeId → List NodeId × Scene
  | [] => ([], scene)
  | id :: rest =>
    match (tree.get? id).map Node.content with
    | some (.block (.choice _ (some guard)) _) =>
      let asked := scene.ask host guard true
      let sifted := asked.2.sift host tree rest
      (if asked.1 then id :: sifted.1 else sifted.1, sifted.2)
    | _ =>
      let sifted := scene.sift host tree rest
      (id :: sifted.1, sifted.2)

def offer (tree : Tree) (scene : Scene) (offered : List NodeId) : Scene :=
  scene.emit (.offered (offered.filterMap fun id =>
    match (tree.get? id).map Node.content with
    | some (.block (.choice text guard) _) => some ⟨text, guard.isSome⟩
    | _ => none))

/-- The first pick that fits an offer. Picks that do not fit are refused and gone. -/
def pick (offered : List NodeId) : List Nat → Option NodeId × List Nat
  | [] => (none, [])
  | index :: rest =>
    match offered[index]? with
    | some choice => (some choice, rest)
    | none => pick offered rest

end Scene

namespace Ending

/-- Only a body that is played to its end lets playback go on behind the block. -/
def behindBody (rest : Scene → Ending × Scene) : Ending × Scene → Ending × Scene
  | (done, scene) => rest scene
  | stop => stop

/-- Only a return lets playback go on behind the jump. A section that runs out ends it. -/
def behindJump (rest : Scene → Ending × Scene) : Ending × Scene → Ending × Scene
  | (returned, scene) => rest scene
  | (done, scene) => (ended, scene)
  | stop => stop

end Ending

/-- Plays siblings from the first one on. -/
def Tree.evaluate (host : Host) (tree : Tree) : Nat → List NodeId → Scene → Ending × Scene
  | 0, _, scene => (.cut, scene)
  | _ + 1, [], scene => (.done, scene)
  | fuel + 1, id :: rest, scene =>
    match (tree.get? id).map Node.content with
    | none => tree.evaluate host fuel rest scene
    | some (.block (.scope _) _) => (.ended, scene)
    | some (.block (.command text) body) =>
      let asked := scene.ask host text !body.isEmpty
      if asked.1 && !body.isEmpty then
        tree.evaluate host fuel body asked.2
          |> Ending.behindBody (tree.evaluate host fuel rest)
      else tree.evaluate host fuel rest asked.2
    | some (.block (.choice _ _) _) =>
      let behind := (id :: rest).dropWhile tree.isChoice
      match scene.sift host tree ((id :: rest).takeWhile tree.isChoice) with
      | ([], scene) => tree.evaluate host fuel behind scene
      | (offered, scene) =>
        match Scene.pick offered scene.picks with
        | (none, picks) => (.waiting offered, { scene.offer tree offered with picks })
        | (some choice, picks) =>
          tree.evaluate host fuel (tree.children choice) { scene.offer tree offered with picks }
            |> Ending.behindBody (tree.evaluate host fuel behind)
    | some (.leaf (.line text)) => tree.evaluate host fuel rest (scene.emit (.line text))
    | some (.leaf (.comment _)) => tree.evaluate host fuel rest scene
    | some (.leaf (.jump _ none)) => tree.evaluate host fuel rest scene
    | some (.leaf (.jump _ (some target))) =>
      tree.evaluate host fuel (tree.children target) scene
        |> Ending.behindJump (tree.evaluate host fuel rest)
    | some (.leaf .back) => (.returned, scene)

end Dialogue
