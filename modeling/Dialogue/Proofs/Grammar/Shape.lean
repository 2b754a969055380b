import Dialogue.Proofs.Parse.Linking

/-! Shapes: sketches without the places of the nodes in the script. What a line adds to a
sketch can be told from the shape of the sketch. -/
namespace Dialogue

def Content.key? : Content → Option String
  | block (.scope key) _ => key
  | _ => none

def Content.jump? : Content → Option String
  | leaf (.jump key _) => some key
  | _ => none

theorem Entry.key?_eq (entry : Entry) : entry.key? = entry.mark.label.key? := by
  obtain ⟨level, line, column, label⟩ := entry
  cases label with
  | leaf => rfl
  | block block children => cases block <;> rfl

private theorem Entry.jump?_eq (entry : Entry) : entry.jump? = entry.mark.label.jump? := by
  obtain ⟨level, line, column, label⟩ := entry
  cases label with
  | block => rfl
  | leaf leaf => cases leaf <;> rfl

namespace Sketch

def shape (entries : List Entry) : List (Nat × Content) :=
  entries.map fun entry => (entry.level, entry.mark.label)

variable {entries : List Entry} {id : Nat}

theorem levelAt_eq_of_shape {level : Nat} {label : Content}
    (h : (shape entries)[id]? = some (level, label)) : levelAt entries id = level := by
  rw [shape, List.getElem?_map, Option.map_eq_some_iff] at h
  obtain ⟨entry, hentry, heq⟩ := h
  rw [levelAt, hentry]
  exact congrArg Prod.fst heq

theorem labelAt?_eq_of_shape {level : Nat} {label : Content}
    (h : (shape entries)[id]? = some (level, label)) : labelAt? entries id = some label := by
  rw [shape, List.getElem?_map, Option.map_eq_some_iff] at h
  obtain ⟨entry, hentry, heq⟩ := h
  rw [labelAt?, hentry]
  exact congrArg some (congrArg Prod.snd heq)

theorem levelAt_congr {others : List Entry} (h : shape entries = shape others) :
    levelAt entries = levelAt others := by
  funext id
  have hsame := congrArg (fun nodes => ((nodes[id]?).map Prod.fst).getD 0) h
  simpa [shape, levelAt, Function.comp_def] using hsame

theorem labelAt?_congr {others : List Entry} (h : shape entries = shape others) :
    labelAt? entries = labelAt? others := by
  funext id
  have hsame := congrArg (fun nodes => (nodes[id]?).map Prod.snd) h
  simpa [shape, labelAt?, Function.comp_def] using hsame

def keys (nodes : List (Nat × Content)) : List String := nodes.filterMap (·.2.key?)

theorem keys_cons (node : Nat × Content) (nodes : List (Nat × Content)) :
    keys (node :: nodes) = node.2.key?.toList ++ keys nodes := by
  cases hkey : node.2.key? <;> simp [keys, hkey]

theorem keys_append (nodes more : List (Nat × Content)) :
    keys (nodes ++ more) = keys nodes ++ keys more := List.filterMap_append

theorem keys_congr {others : List Entry} (h : shape entries = shape others) :
    entries.map Entry.key? = others.map Entry.key? := by
  have hsame := congrArg (List.map fun node => node.2.key?) h
  have hkey : Entry.key? = fun entry => entry.mark.label.key? := funext Entry.key?_eq
  rw [hkey]
  simpa [shape, Function.comp_def] using hsame

theorem filterMap_key? (entries : List Entry) :
    entries.filterMap Entry.key? = keys (shape entries) := by
  rw [keys, shape, List.filterMap_map]
  exact congrArg (List.filterMap · entries) (funext Entry.key?_eq)

def floor (nodes : List (Nat × Content)) : Nat := if keys nodes = [] then 0 else 1

theorem floor_append {more : List (Nat × Content)} (nodes : List (Nat × Content))
    (h : keys more = []) : floor (nodes ++ more) = floor nodes := by
  rw [floor, keys_append, h, List.append_nil, floor]

theorem ground_eq_floor (entries : List Entry) : ground entries = floor (shape entries) := by
  have hiff : (entries.map Entry.key?).any Option.isSome = true ↔ keys (shape entries) ≠ [] := by
    rw [← filterMap_key?, Ne, List.filterMap_eq_nil_iff, List.any_map, List.any_eq_true]
    simp [Option.isSome_iff_ne_none]
  unfold ground floor
  by_cases hkeys : keys (shape entries) = []
  · rw [if_pos hkeys, if_neg (fun hany => hiff.mp hany hkeys)]
  · rw [if_neg hkeys, if_pos (hiff.mpr hkeys)]

theorem lookup_names_eq_none_iff {key : String} :
    (names entries).lookup key = none ↔ key ∉ keys (shape entries) := by
  rw [lookup_names, List.findIdx?_eq_none_iff, ← filterMap_key?, List.mem_filterMap]
  simp

theorem at_length_of_shape {before after : List (Nat × Content)} {level : Nat} {label : Content}
    (h : shape entries = before ++ (level, label) :: after) :
    levelAt entries before.length = level ∧ labelAt? entries before.length = some label := by
  have hnode : (shape entries)[before.length]? = some (level, label) := by
    rw [h, List.getElem?_append_right (Nat.le_refl _), Nat.sub_self]
    rfl
  exact ⟨levelAt_eq_of_shape hnode, labelAt?_eq_of_shape hnode⟩

theorem map_snd_jumps (entries : List Entry) :
    (jumps entries).map Prod.snd = (shape entries).filterMap (·.2.jump?) := by
  have hkeys : (jumps entries).map Prod.snd =
      ((entries.map Entry.jump?).zipIdx.map Prod.fst).filterMap id := by
    rw [jumps, List.map_filterMap, List.filterMap_map]
    refine congrArg (List.filterMap · _) (funext fun jump => ?_)
    cases hjump : jump.1 <;> simp [hjump]
  rw [hkeys, List.zipIdx_map_fst, List.filterMap_map, shape, List.filterMap_map]
  exact congrArg (List.filterMap · entries) (funext Entry.jump?_eq)

/-- A shape that a command line of this level does not go on with. -/
def Shut (nodes : List (Nat × Content)) (level : Nat) : Prop :=
  ∀ text children, nodes.getLast? ≠ some (level, .block (.command text) children)

/-- What a line of a level makes of a shape. -/
inductive Grown (level : Nat) (nodes : List (Nat × Content)) :
    Growth → List (Nat × Content) → Prop
  | nothing : Grown level nodes .nothing nodes
  | leaf (column : Nat) (leaf : Leaf) :
      Grown level nodes (.leaf column leaf) (nodes ++ [(level, .leaf leaf.unaimed)])
  | choice (column : Nat) (text : String) (condition : Option String) :
      Grown level nodes (.choice column text condition)
        (nodes ++ [(level, .block (.choice text condition) [])])
  | scope (column : Nat) (key : String) (declared : Bool) :
      Grown level nodes (.scope column key declared)
        (nodes ++ [(1, .block (.scope (some key)) [])])
  | command (column : Nat) (text : String) (hshut : Shut nodes level) :
      Grown level nodes (.command column text) (nodes ++ [(level, .block (.command text) [])])
  | more (column : Nat) (text : String) {before : List (Nat × Content)} {first : String}
      {children : List NodeId}
      (hnodes : nodes = before ++ [(level, .block (.command first) children)]) :
      Grown level nodes (.command column text)
        (before ++ [(level, .block (.command (first ++ "\n" ++ text)) children)])

theorem shape_append (entries : List Entry) (entry : Entry) :
    shape (entries ++ [entry]) = shape entries ++ [(entry.level, entry.mark.label)] := by
  rw [shape, List.map_append]
  rfl

private theorem shut_of_extensible? {level : Nat} (h : extensible? entries level = none) :
    Shut (shape entries) level := by
  intro text children hlast
  rw [shape, List.getLast?_map, Option.map_eq_some_iff] at hlast
  obtain ⟨entry, hentry, heq⟩ := hlast
  obtain ⟨_, line, column, label⟩ := entry
  obtain ⟨rfl, rfl⟩ := Prod.mk.inj heq
  rw [extensible?, hentry] at h
  simp [Entry.isCommand] at h

private theorem shape_extend {level id : Nat} (h : extensible? entries level = some id) :
    ∃ before first children,
      shape entries = before ++ [(level, .block (.command first) children)] ∧
      ∀ text, shape (entries.modify id (Entry.extend text)) =
        before ++ [(level, .block (.command (first ++ "\n" ++ text)) children)] := by
  obtain ⟨hlast, entry, hentry, hcommand, rfl⟩ := extensible?_eq_some_iff.mp h
  obtain ⟨before, rfl, hlength⟩ : ∃ before, entries = before ++ [entry] ∧ before.length = id := by
    obtain ⟨hlt, rfl⟩ := List.getElem?_eq_some_iff.mp hentry
    refine ⟨entries.take id, ?_, List.length_take_of_le (Nat.le_of_lt hlt)⟩
    rw [List.take_append_getElem hlt, hlast, List.take_length]
  obtain ⟨level, line, column, label⟩ := entry
  cases label with
  | leaf => contradiction
  | block block children =>
    cases block with
    | scope => contradiction
    | choice => contradiction
    | command first =>
      refine ⟨shape before, first, children, shape_append before _, fun text => ?_⟩
      rw [← hlength, List.modify, ← Nat.add_zero before.length, List.modifyTailIdx_add]
      exact shape_append before _

/-- The shape is all that a line needs. -/
theorem grown_grow (entries : List Entry) (depth number : Nat) (growth : Growth) :
    Grown (ground entries + depth) (shape entries) growth
      (shape (grow entries depth number growth)) := by
  cases growth with
  | nothing => exact .nothing
  | leaf column leaf =>
    rw [grow, shape_append]
    exact .leaf column leaf
  | choice column text condition =>
    rw [grow, shape_append]
    exact .choice column text condition
  | scope column key declared =>
    rw [grow, shape_append]
    exact .scope column key declared
  | command column text =>
    rw [grow]
    split
    next id hid =>
      obtain ⟨before, first, children, hshape, hextend⟩ := shape_extend hid
      rw [hextend]
      exact .more column text hshape
    next hnone =>
      rw [shape_append]
      exact .command column text (shut_of_extensible? hnone)

end Sketch
end Dialogue
