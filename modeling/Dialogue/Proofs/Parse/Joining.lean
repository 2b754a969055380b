import Dialogue.Proofs.Parse.Moved
import Dialogue.Proofs.Parse.Stages

/-! Joined readings. Lines that open with a section are read behind other lines as they are read
by themselves. Nodes and lines are counted on, and no name may be declared on both sides. -/
namespace Dialogue

def Mark.moved (count : Nat) (mark : Mark) : Mark := { mark with line := count + mark.line }

def Entry.moved (count : Nat) (entry : Entry) : Entry :=
  { entry with mark := entry.mark.moved count }

def Link.moved (shift count : Nat) (link : Link) : Link :=
  { link with node := shift + link.node, line := count + link.line }

@[simp] theorem Entry.isCommand_moved (count : Nat) (entry : Entry) :
    (entry.moved count).isCommand = entry.isCommand := by
  obtain ⟨level, line, column, label⟩ := entry
  cases label with
  | leaf => rfl
  | block block children => cases block <;> rfl

@[simp] theorem Entry.key?_moved (count : Nat) (entry : Entry) :
    (entry.moved count).key? = entry.key? := by
  rw [key?_eq, key?_eq]
  rfl

namespace Sketch

variable {entries front back : List Entry} {entry last : Entry} {depth number count : Nat}
  {growth : Growth} {key : String}

/-- Two sketches as one. The second one leaves out its root. -/
def join (count : Nat) (front back : List Entry) : List Entry :=
  front ++ back.tail.map (Entry.moved count)

structure Underway (entries : List Entry) : Prop where
  root : entries[0]? = some Entry.root
  keys : keys (shape entries) ≠ []

theorem shape_moved (count : Nat) (entries : List Entry) :
    shape (entries.map (Entry.moved count)) = shape entries := by
  rw [shape, shape, List.map_map]
  rfl

theorem keys_join (hroot : back[0]? = some Entry.root) :
    keys (shape (join count front back)) = keys (shape front) ++ keys (shape back) := by
  obtain ⟨first, rest, rfl⟩ := List.exists_cons_of_ne_nil (l := back) (by rintro rfl; contradiction)
  obtain rfl : first = Entry.root := Option.some.inj hroot
  rw [join, shape, List.map_append, ← shape, ← shape, keys_append, List.tail_cons, shape_moved]
  rfl

theorem keys_grow (entries : List Entry) (depth number : Nat) (growth : Growth) :
    keys (shape (grow entries depth number growth)) =
      keys (shape entries) ++ growth.key?.toList := by
  have hgrown := grown_grow entries depth number growth
  generalize shape entries = nodes, shape (grow entries depth number growth) = more at hgrown ⊢
  cases hgrown with
  | nothing => exact (List.append_nil _).symm
  | @more column text before first children hnodes =>
    rw [hnodes, keys_append, keys_append]
    exact (List.append_nil _).symm
  | _ => rw [keys_append]; rfl

theorem lookup_names_join (hfront : 0 < front.length) (hroot : back[0]? = some Entry.root)
    (key : String) : (names (join count front back)).lookup key =
      ((names front).lookup key).or
        (((names back).lookup key).map (front.length - 1 + ·)) := by
  obtain ⟨first, rest, rfl⟩ := List.exists_cons_of_ne_nil (l := back) (by rintro rfl; contradiction)
  obtain rfl : first = Entry.root := Option.some.inj hroot
  have hmoved : (rest.map (Entry.moved count)).findIdx? (·.key? == some key) =
      rest.findIdx? (·.key? == some key) := by
    rw [List.findIdx?_map]
    simp [Function.comp_def]
  rw [lookup_names, lookup_names, lookup_names, join, List.findIdx?_append, List.tail_cons, hmoved,
    List.findIdx?_cons]
  refine congrArg _ ?_
  rw [if_neg (by exact Bool.false_ne_true), Option.map_map]
  refine congrArg (Option.map · _) (funext fun id => ?_)
  simp only [Function.comp]
  omega

private theorem modify_concat (before : List Entry) (last : Entry) (f : Entry → Entry) :
    (before ++ [last]).modify before.length f = before ++ [f last] := by
  rw [← Nat.add_zero before.length, List.modify, List.modifyTailIdx_add]
  rfl

/-- A command line goes on with the last node or comes behind it. -/
theorem grow_command_concat (before : List Entry) (last : Entry) (column : Nat) (text : String) :
    grow (before ++ [last]) depth number (.command column text) =
      if last.isCommand && last.level == ground (before ++ [last]) + depth then
        before ++ [last.extend text]
      else before ++ [last] ++
        [⟨ground (before ++ [last]) + depth, number, column, .block (.command text) []⟩] := by
  have hlast : before.length + 1 - 1 = before.length := Nat.add_sub_cancel ..
  simp only [grow, extensible?, List.getLast?_concat, Option.any_some, List.length_append,
    List.length_singleton, hlast]
  cases last.isCommand && last.level == ground (before ++ [last]) + depth with
  | true => exact modify_concat ..
  | false => rfl

namespace Underway

private theorem ground_eq (h : Underway entries) : ground entries = 1 := by
  rw [ground_eq_floor, floor, if_neg h.keys]

private theorem join (h : Underway back) (hfront : front[0]? = some Entry.root) :
    Underway (join count front back) := by
  refine ⟨?_, ?_⟩
  · have hlt := (List.getElem?_eq_some_iff.mp hfront).1
    rw [Sketch.join, List.getElem?_append_left hlt]
    exact hfront
  · rw [keys_join h.root]
    exact List.append_ne_nil_of_right_ne_nil _ h.keys

theorem exists_concat (h : Underway entries) :
    ∃ before last, entries = Entry.root :: (before ++ [last]) := by
  obtain ⟨first, rest, rfl⟩ := List.exists_cons_of_ne_nil (l := entries)
    (by rintro rfl; exact nomatch h.root)
  obtain rfl : first = Entry.root := Option.some.inj h.root
  rcases List.eq_nil_or_concat rest with rfl | ⟨before, last, rfl⟩
  · exact absurd rfl h.keys
  · exact ⟨before, last, by rw [List.concat_eq_append]⟩

private theorem grow (h : Underway entries) (depth number : Nat) (growth : Growth) :
    Underway (grow entries depth number growth) := by
  refine ⟨?_, ?_⟩
  · have happend (more : List Entry) : (entries ++ more)[0]? = some Entry.root := by
      rw [List.getElem?_append_left (List.getElem?_eq_some_iff.mp h.root).1]
      exact h.root
    cases growth with
    | nothing => exact h.root
    | leaf => exact happend _
    | choice => exact happend _
    | scope => exact happend _
    | command column text =>
      obtain ⟨before, last, rfl⟩ := h.exists_concat
      rw [← List.cons_append, grow_command_concat]
      split <;> rfl
  · rw [keys_grow]
    exact List.append_ne_nil_of_left_ne_nil h.keys _

theorem join_grow (h : Underway back) (hfront : front[0]? = some Entry.root)
    (depth number count : Nat) (growth : Growth) :
    Sketch.join count front (Sketch.grow back depth number growth) =
      Sketch.grow (Sketch.join count front back) depth (count + number) growth := by
  have hground : ground (Sketch.join count front back) = 1 := (h.join hfront).ground_eq
  have hback := h.ground_eq
  obtain ⟨before, last, rfl⟩ := h.exists_concat
  cases growth with
  | nothing => rfl
  | command column text =>
    have hwhole : Sketch.join count front (Entry.root :: (before ++ [last])) =
        front ++ before.map (Entry.moved count) ++ [last.moved count] := by
      simp [Sketch.join]
    rw [hwhole] at hground ⊢
    rw [← List.cons_append] at hback ⊢
    rw [grow_command_concat, grow_command_concat, hground, hback, Entry.isCommand_moved]
    show Sketch.join count front (if last.isCommand && last.level == 1 + depth then _ else _) =
      if last.isCommand && last.level == 1 + depth then _ else _
    split <;> simp [Sketch.join, Entry.moved, Entry.extend, Mark.moved, Mark.extend]
  | _ =>
    simp only [Sketch.grow, hground, hback]
    simp [Sketch.join, Entry.moved, Mark.moved]

end Underway
end Sketch

private theorem Growth.links_moved (shift count id number column : Nat) (growth : Growth) :
    growth.links (shift + id) (count + number) column =
      (growth.links id number column).map (Link.moved shift count) := by
  unfold links
  split <;> rfl

namespace Reading

variable {options : Options} {reading front back after whole : Reading} {line : Line}
  {text : String}

def keys (reading : Reading) : List String := Sketch.keys (Sketch.shape reading.entries)

def shift (reading : Reading) : Nat := reading.entries.length - 1

def append (front back : Reading) : Reading where
  entries := Sketch.join front.lineCount front.entries back.entries
  room := back.room
  lineCount := front.lineCount + back.lineCount
  links := front.links ++ back.links.map (Link.moved front.shift front.lineCount)
  diagnostics := front.diagnostics ++ back.diagnostics.map (Diagnostic.moved front.lineCount)
  asked := front.asked ++ back.asked

theorem taken_eq_none_iff {key : String} : reading.taken key = none ↔ key ∉ reading.keys := by
  rw [taken, Option.map_eq_none_iff]
  exact Sketch.lookup_names_eq_none_iff

/-- What becomes of a reading, where everything is accepted and each name is declared once. -/
inductive Reads (options : Options) (reading : Reading) (text : String) : Reading → Prop
  | blank (hline : Line.read? reading.lineCount text.toList = none) :
      Reads options reading text { reading with lineCount := reading.lineCount + 1 }
  | deep (line : Line) (hline : Line.read? reading.lineCount text.toList = some line)
      (hdeep : reading.room < line.depth) :
      Reads options reading text { reading with
        lineCount := reading.lineCount + 1
        diagnostics := reading.diagnostics.push (line.complaint line.column .tooDeep) }
  | fits (line : Line) (hline : Line.read? reading.lineCount text.toList = some line)
      (hfits : line.depth ≤ reading.room)
      (hfree : ∀ key, line.declared? options = some key → key ∉ reading.keys) :
      Reads options reading text ({ reading with lineCount := reading.lineCount + 1 }.absorb line
        (line.effect options (fun _ => none) fun _ => none))

theorem effect_lenient
    (hfree : ∀ key, line.declared? options = some key → key ∉ reading.keys) :
    reading.effect options .lenient line = line.effect options (fun _ => none) fun _ => none :=
  Line.effect_of_free fun key hkey => taken_eq_none_iff.mpr (hfree key hkey)

theorem feed_eq_ok_iff (hfail : options.duplicates = .fail) :
    reading.feed options .lenient text = .ok after ↔ reading.Reads options text after := by
  have hfailure (line : Line) : (reading.effect options .lenient line).failure = none ↔
      ∀ key, line.declared? options = some key → key ∉ reading.keys := by
    simp only [← taken_eq_none_iff]
    exact Line.failure_eq_none_iff hfail
  constructor
  · intro hfeed
    rcases feed_cases hfeed with ⟨hline, rfl⟩ | ⟨line, hline, ⟨hdeep, rfl⟩ | ⟨hfits, hnone, rfl⟩⟩
    · exact .blank hline
    · exact .deep line hline hdeep
    · have hfree := (hfailure line).mp hnone
      rw [effect_lenient hfree]
      exact .fits line hline hfits hfree
  · intro hreads
    unfold feed
    cases hreads with
    | blank hline => rw [hline]
    | deep line hline hdeep =>
      rw [hline]
      exact if_pos hdeep
    | fits line hline hfits hfree =>
      have hnone : (({ reading with lineCount := reading.lineCount + 1 } : Reading).effect options
          .lenient line).failure = none := (hfailure line).mpr hfree
      simp only [hline, place]
      rw [if_neg (Nat.not_lt.mpr hfits), hnone, ← effect_lenient hfree]
      rfl

def Apart (front back : Reading) : Prop := ∀ key ∈ front.keys, key ∉ back.keys

theorem keys_append (hroot : back.entries[0]? = some Entry.root) :
    (front.append back).keys = front.keys ++ back.keys := Sketch.keys_join hroot

theorem keys_absorb (reading : Reading) (line : Line) (effect : Effect) :
    (reading.absorb line effect).keys = reading.keys ++ effect.growth.key?.toList :=
  Sketch.keys_grow ..

private theorem length_entries_append (hfront : front.entries[0]? = some Entry.root)
    (hroot : back.entries[0]? = some Entry.root) :
    (front.append back).entries.length = front.shift + back.entries.length := by
  have hpos := (List.getElem?_eq_some_iff.mp hfront).1
  have hmore := (List.getElem?_eq_some_iff.mp hroot).1
  rw [append, Sketch.join, List.length_append, List.length_map, List.length_tail, shift]
  omega

theorem append_absorb (hfront : front.entries[0]? = some Entry.root)
    (hback : Sketch.Underway back.entries) (line : Line) (effect : Effect) :
    (front.append back).absorb (line.moved front.lineCount) (effect.moved front.lineCount) =
      front.append (back.absorb line effect) := by
  have hlength : (front.append back).entries.length = front.shift + back.entries.length :=
    length_entries_append hfront hback.root
  have hentries := hback.join_grow hfront line.depth line.number front.lineCount effect.growth
  have hlinks := Growth.links_moved front.shift front.lineCount back.entries.length line.number
    line.restColumn effect.growth
  unfold absorb
  rw [hlength]
  simp only [append, Line.number_moved, Line.depth_moved, Line.restColumn_moved, Effect.moved,
    hlinks, hentries, Reading.mk.injEq, true_and]
  simp [← Array.toList_inj]

theorem append_line (hfront : front.entries[0]? = some Entry.root)
    (hback : Sketch.Underway back.entries) (options : Options) (line : Line) :
    (front.append { back with lineCount := back.lineCount + 1 }).absorb (line.moved front.lineCount)
        ((line.moved front.lineCount).effect options (fun _ => none) fun _ => none) =
      front.append ({ back with lineCount := back.lineCount + 1 }.absorb line
        (line.effect options (fun _ => none) fun _ => none)) := by
  have hcounted : Sketch.Underway
      ({ back with lineCount := back.lineCount + 1 } : Reading).entries := hback
  rw [Line.effect_moved]
  exact append_absorb hfront hcounted ..

theorem append_push (front back : Reading) (diagnostic : Diagnostic) :
    front.append { back with diagnostics := back.diagnostics.push diagnostic } =
      { front.append back with
        diagnostics :=
          (front.append back).diagnostics.push (diagnostic.moved front.lineCount) } := by
  simp [append]

theorem read?_append (front back : Reading) (text : List Char) :
    Line.read? (front.append back).lineCount text =
      (Line.read? back.lineCount text).map (Line.moved front.lineCount) :=
  Line.read?_add ..

theorem free_of_apart (hroot : back.entries[0]? = some Entry.root)
    (hapart : front.Apart ({ back with lineCount := back.lineCount + 1 }.absorb line
      (line.effect options (fun _ => none) fun _ => none)))
    (hfree : ∀ key, line.declared? options = some key → key ∉ back.keys) :
    ∀ key, line.declared? options = some key → key ∉ (front.append back).keys := by
  intro key hkey
  rw [keys_append hroot, List.mem_append, not_or]
  refine ⟨fun hin => hapart key hin ?_, hfree key hkey⟩
  rw [keys_absorb, List.mem_append, Line.key?_growth_effect]
  exact .inr (Option.mem_toList.mpr hkey)

theorem Reads.append (h : back.Reads options text after)
    (hfront : front.entries[0]? = some Entry.root) (hback : Sketch.Underway back.entries)
    (hapart : front.Apart after) : (front.append back).Reads options text (front.append after) := by
  have hread := read?_append front back text.toList
  cases h with
  | blank hline =>
    rw [hline] at hread
    exact .blank hread
  | deep line hline hdeep =>
    rw [hline] at hread
    rw [append_push front { back with lineCount := back.lineCount + 1 }]
    exact .deep _ hread hdeep
  | fits line hline hfits hfree =>
    rw [hline] at hread
    have hmoved := free_of_apart hback.root hapart hfree
    rw [← append_line hfront hback]
    exact .fits _ hread hfits hmoved

theorem Reads.exists_of_append (h : (front.append back).Reads options text whole)
    (hfront : front.entries[0]? = some Entry.root) (hback : Sketch.Underway back.entries)
    (hapart : front.Apart back) :
    ∃ after, back.Reads options text after ∧ front.Apart after ∧ whole = front.append after := by
  have hread := read?_append front back text.toList
  cases h with
  | blank hline =>
    rw [hline] at hread
    exact ⟨_, .blank (Option.map_eq_none_iff.mp hread.symm), hapart, rfl⟩
  | deep line hline hdeep =>
    rw [hline] at hread
    obtain ⟨own, hown, rfl⟩ := Option.map_eq_some_iff.mp hread.symm
    refine ⟨_, .deep own hown hdeep, hapart, ?_⟩
    rw [append_push front { back with lineCount := back.lineCount + 1 }]
    rfl
  | fits line hline hfits hfree =>
    rw [hline] at hread
    obtain ⟨own, hown, rfl⟩ := Option.map_eq_some_iff.mp hread.symm
    rw [keys_append hback.root] at hfree
    refine ⟨_, .fits own hown hfits fun key hkey hin => ?_, fun key hin => ?_, ?_⟩
    · exact hfree key hkey (List.mem_append_right _ hin)
    · rw [keys_absorb, List.mem_append, Line.key?_growth_effect, not_or, Option.mem_toList]
      exact ⟨hapart key hin, fun hkey => hfree key hkey (List.mem_append_left _ hin)⟩
    · rw [← append_line hfront hback]
      rfl

theorem Reads.underway (h : reading.Reads options text after)
    (hreading : Sketch.Underway reading.entries) : Sketch.Underway after.entries := by
  cases h with
  | blank => exact hreading
  | deep => exact hreading
  | fits => exact hreading.grow ..

theorem Reads.keys_subset (h : reading.Reads options text after) : reading.keys ⊆ after.keys := by
  cases h with
  | blank => exact List.Subset.refl _
  | deep => exact List.Subset.refl _
  | fits =>
    rw [keys_absorb]
    exact List.subset_append_left ..

theorem foldlM_cons_eq_ok_iff {checker : Checker} {lines : List String} :
    (text :: lines).foldlM (feed options checker) reading = .ok after ↔
      ∃ next, reading.feed options checker text = .ok next ∧
        lines.foldlM (feed options checker) next = .ok after := by
  rw [List.foldlM_cons]
  cases reading.feed options checker text with
  | error error => exact iff_of_false nofun nofun
  | ok next =>
    constructor
    · intro hrest
      exact ⟨next, rfl, hrest⟩
    · rintro ⟨_, hnext, hrest⟩
      obtain rfl := Except.ok.inj hnext
      exact hrest

theorem keys_subset_of_foldlM (hfail : options.duplicates = .fail) {lines : List String}
    (h : lines.foldlM (feed options .lenient) reading = .ok after) :
    reading.keys ⊆ after.keys := by
  refine foldlM_of_invariant (P := fun next => reading.keys ⊆ next.keys) ?_
    (List.Subset.refl _) h
  intro before text _ next hbefore hfeed
  exact List.Subset.trans hbefore ((feed_eq_ok_iff hfail).mp hfeed).keys_subset

theorem foldlM_append_iff (hfail : options.duplicates = .fail)
    (hfront : front.entries[0]? = some Entry.root) (hback : Sketch.Underway back.entries)
    (hapart : front.Apart back) {lines : List String} :
    lines.foldlM (feed options .lenient) (front.append back) = .ok whole ↔
      ∃ after, lines.foldlM (feed options .lenient) back = .ok after ∧ front.Apart after ∧
        whole = front.append after := by
  induction lines generalizing back with
  | nil =>
    constructor
    · intro h
      exact ⟨back, rfl, hapart, (Except.ok.inj h).symm⟩
    · rintro ⟨after, h, _, rfl⟩
      obtain rfl := Except.ok.inj h
      rfl
  | cons text rest ih =>
    simp only [foldlM_cons_eq_ok_iff, feed_eq_ok_iff hfail]
    constructor
    · rintro ⟨next, hreads, hrest⟩
      obtain ⟨middle, hmiddle, hfree, rfl⟩ := hreads.exists_of_append hfront hback hapart
      obtain ⟨after, hafter, hdone⟩ := (ih (hmiddle.underway hback) hfree).mp hrest
      exact ⟨after, ⟨middle, hmiddle, hafter⟩, hdone⟩
    · rintro ⟨after, ⟨middle, hmiddle, hafter⟩, hdone⟩
      have hfree : front.Apart middle := fun key hkey hin =>
        hdone.1 key hkey (keys_subset_of_foldlM hfail hafter hin)
      refine ⟨front.append middle, hmiddle.append hfront hback hfree, ?_⟩
      exact (ih (hmiddle.underway hback) hfree).mpr ⟨after, hafter, hdone⟩

end Reading

/-- A section line at the head of some lines, not indented and with a name. -/
structure Line.Heads (line : Line) (lines : List String) (key : String) : Prop where
  at? : Line.at? lines 0 = some line
  marker : line.marker = .scope
  depth : line.depth = 1
  name : line.excerpt?.map (·.text) = some key

theorem Line.Heads.exists_cons {line : Line} {lines : List String} {key : String}
    (h : line.Heads lines key) (options : Options) :
    ∃ text rest, lines = text :: rest ∧ read? 0 text.toList = some line ∧
      line.declared? options = some key := by
  cases lines with
  | nil => exact nomatch h.at?
  | cons text rest =>
    refine ⟨text, rest, rfl, h.at?, ?_⟩
    rw [declared?, if_pos ⟨h.marker, fun hindented => hindented.1 h.depth⟩]
    exact h.name

theorem Growth.exists_scope_of_key? {growth : Growth} {key : String}
    (h : growth.key? = some key) : ∃ column declared, growth = .scope column key declared := by
  cases growth with
  | scope column name declared =>
    obtain rfl := Option.some.inj h
    exact ⟨column, declared, rfl⟩
  | _ => contradiction

namespace Reading

variable {options : Options} {front back after whole : Reading} {line : Line} {text : String}
  {key : String}

def opening (options : Options) (line : Line) : Reading :=
  ({ lineCount := 1 } : Reading).absorb line
    (line.effect options (fun _ => none) fun _ => none)

theorem keys_opening (h : line.declared? options = some key) : (opening options line).keys = [key] := by
  rw [opening, keys_absorb, Line.key?_growth_effect, h]
  rfl

theorem underway_opening (h : line.declared? options = some key) :
    Sketch.Underway (opening options line).entries := by
  obtain ⟨column, declared, hgrowth⟩ :=
    Growth.exists_scope_of_key? ((Line.key?_growth_effect options (fun _ => none) line).trans h)
  refine ⟨?_, ?_⟩
  · rw [opening, absorb, hgrowth]
    rfl
  · show (opening options line).keys ≠ []
    rw [keys_opening h]
    exact List.cons_ne_nil key []

theorem append_opening (h : line.declared? options = some key) :
    front.append (opening options line) =
      { front with lineCount := front.lineCount + 1 }.absorb (line.moved front.lineCount)
        ((line.moved front.lineCount).effect options (fun _ => none) fun _ => none) := by
  obtain ⟨column, declared, hgrowth⟩ :=
    Growth.exists_scope_of_key? ((Line.key?_growth_effect options (fun _ => none) line).trans h)
  rw [Line.effect_moved]
  simp only [append, opening, absorb, Effect.moved, hgrowth]
  simp [← Array.toList_inj, Sketch.join, Sketch.grow, Growth.links, Entry.moved, Mark.moved,
    Growth.room]

theorem feed_opening_iff (hfail : options.duplicates = .fail) (hroom : 0 < front.room)
    (hread : Line.read? 0 text.toList = some line) (hdepth : line.depth = 1)
    (hkey : line.declared? options = some key) :
    front.feed options .lenient text = .ok after ↔
      key ∉ front.keys ∧ after = front.append (opening options line) := by
  have hmoved : Line.read? front.lineCount text.toList = some (line.moved front.lineCount) := by
    rw [← Nat.add_zero front.lineCount, Line.read?_add, hread]
    rfl
  have hfits : (line.moved front.lineCount).depth ≤ front.room := hdepth ▸ hroom
  rw [feed_eq_ok_iff hfail, append_opening hkey]
  constructor
  · intro hreads
    cases hreads with
    | blank hline => exact nomatch hmoved.symm.trans hline
    | deep other hline hdeep =>
      obtain rfl := Option.some.inj (hmoved.symm.trans hline)
      exact absurd hfits (Nat.not_le.mpr hdeep)
    | fits other hline _ hfree =>
      obtain rfl := Option.some.inj (hmoved.symm.trans hline)
      exact ⟨hfree key hkey, rfl⟩
  · rintro ⟨hfree, rfl⟩
    refine .fits _ hmoved hfits fun other hother => ?_
    obtain rfl := Option.some.inj (hkey.symm.trans hother)
    exact hfree

theorem root_of_read {checker : Checker} {lines : List String} {reading : Reading}
    (h : read options checker lines = .ok reading) :
    reading.entries[0]? = some Entry.root ∧ 0 < reading.room := by
  have hmatches := Progress.keeps_read options checker lines
  rw [h] at hmatches
  refine ⟨hmatches.draft.regular.root, ?_⟩
  rw [← hmatches.room]
  exact List.length_pos_iff.mpr hmatches.draft.branch.ne_nil

theorem feed_opening (hfail : options.duplicates = .fail)
    (hread : Line.read? 0 text.toList = some line) (hdepth : line.depth = 1) :
    ({} : Reading).feed options .lenient text = .ok (opening options line) := by
  rw [feed_eq_ok_iff hfail]
  exact .fits line hread (Nat.le_of_eq hdepth) fun _ _ => List.not_mem_nil

theorem read_opening_iff (hfail : options.duplicates = .fail) {rest : List String}
    (hread : Line.read? 0 text.toList = some line) (hdepth : line.depth = 1) :
    read options .lenient (text :: rest) = .ok back ↔
      rest.foldlM (feed options .lenient) (opening options line) = .ok back := by
  rw [read, foldlM_cons_eq_ok_iff, feed_opening hfail hread hdepth]
  constructor
  · rintro ⟨_, hnext, hrest⟩
    exact Except.ok.inj hnext ▸ hrest
  · intro hrest
    exact ⟨_, rfl, hrest⟩

/-- Lines that a section heads are read behind other lines as they are by themselves, if no name
is declared on both sides. -/
theorem read_append_iff (hfail : options.duplicates = .fail) {lines more : List String}
    (hheads : line.Heads more key) :
    read options .lenient (lines ++ more) = .ok whole ↔
      ∃ front back, read options .lenient lines = .ok front ∧
        read options .lenient more = .ok back ∧ front.Apart back ∧ whole = front.append back := by
  obtain ⟨text, rest, rfl, hline, hkey⟩ := hheads.exists_cons options
  have hopens {reading next : Reading} (hroom : 0 < reading.room) :
      reading.feed options .lenient text = .ok next ↔
        key ∉ reading.keys ∧ next = reading.append (opening options line) :=
    feed_opening_iff hfail hroom hline hheads.depth hkey
  have hunderway := underway_opening hkey
  have happend : read options .lenient (lines ++ text :: rest) =
      read options .lenient lines >>= (text :: rest).foldlM (feed options .lenient) :=
    List.foldlM_append
  rw [happend]
  simp only [read_opening_iff hfail hline hheads.depth]
  cases hfront : read options .lenient lines with
  | error error => exact iff_of_false nofun nofun
  | ok front =>
    obtain ⟨hroot, hroom⟩ := root_of_read hfront
    show (text :: rest).foldlM (feed options .lenient) front = .ok whole ↔ _
    rw [foldlM_cons_eq_ok_iff]
    simp only [hopens hroom]
    have hapart (hfree : key ∉ front.keys) : front.Apart (opening options line) := by
      intro other hin hother
      rw [keys_opening hkey, List.mem_singleton] at hother
      exact hfree (hother ▸ hin)
    constructor
    · rintro ⟨_, ⟨hfree, rfl⟩, hrest⟩
      obtain ⟨back, hdone⟩ :=
        (foldlM_append_iff hfail hroot hunderway (hapart hfree)).mp hrest
      exact ⟨front, back, rfl, hdone⟩
    · rintro ⟨_, back, hsame, hrest, hdone⟩
      obtain rfl := Except.ok.inj hsame
      have hfree : key ∉ front.keys := fun hin =>
        hdone.1 key hin (keys_subset_of_foldlM hfail hrest
          (by rw [keys_opening hkey]; exact List.mem_singleton_self key))
      refine ⟨_, ⟨hfree, rfl⟩, ?_⟩
      exact (foldlM_append_iff hfail hroot hunderway (hapart hfree)).mpr ⟨back, hrest, hdone⟩

end Reading
end Dialogue
