import Dialogue.Proofs.Grammar.Shape

/-! Lines further down. A line acts alike wherever it stands, as long as the name that it
declares is free there; what it reports and adds moves down with it. -/
namespace Dialogue

def Diagnostic.moved (count : Nat) (diagnostic : Diagnostic) : Diagnostic :=
  { diagnostic with line := count + diagnostic.line }

def Effect.moved (count : Nat) (effect : Effect) : Effect :=
  { effect with diagnostics := effect.diagnostics.map (·.moved count) }

def Growth.key? : Growth → Option String
  | scope _ key _ => some key
  | _ => none

namespace Line

def moved (count : Nat) (line : Line) : Line := { line with number := count + line.number }

@[simp] theorem number_moved (count : Nat) (line : Line) :
    (line.moved count).number = count + line.number := rfl

@[simp] theorem marker_moved (count : Nat) (line : Line) :
    (line.moved count).marker = line.marker := rfl

@[simp] theorem depth_moved (count : Nat) (line : Line) :
    (line.moved count).depth = line.depth := rfl

@[simp] theorem column_moved (count : Nat) (line : Line) :
    (line.moved count).column = line.column := rfl

@[simp] theorem restColumn_moved (count : Nat) (line : Line) :
    (line.moved count).restColumn = line.restColumn := rfl

@[simp] theorem excerpt?_moved (count : Nat) (line : Line) :
    (line.moved count).excerpt? = line.excerpt? := rfl

/-- The name that a line declares; one that is indented may declare nothing. -/
def declared? (options : Options) (line : Line) : Option String :=
  if line.marker = .scope ∧ ¬ (line.depth ≠ 1 ∧ options.strictIndentation) then
    line.excerpt?.map (·.text)
  else none

theorem read?_add (count number : Nat) (text : List Char) :
    read? (count + number) text = (read? number text).map (moved count) := by
  unfold read?
  cases Text.trimStart text <;> rfl

variable {options : Options} {judge : Query → Option Rejection} {taken : String → Option Nat}
  {line : Line}

theorem effect_of_free (h : ∀ key, line.declared? options = some key → taken key = none) :
    line.effect options judge taken = line.effect options judge fun _ => none := by
  unfold effect
  cases hmarker : line.marker with
  | scope =>
    rw [declared?, hmarker] at h
    simp only [scopeEffect]
    split
    next => rfl
    next hstrict =>
      rw [if_pos ⟨rfl, hstrict⟩] at h
      cases hname : line.excerpt? with
      | none => rfl
      | some name => simp only [h name.text (by rw [hname]; rfl)]
  | _ => rfl

theorem failure_effect_of_free (options : Options) (judge : Query → Option Rejection)
    (line : Line) : (line.effect options judge fun _ => none).failure = none := by
  unfold effect
  cases line.marker with
  | scope =>
    simp only [scopeEffect]
    split
    · rfl
    · cases line.excerpt? <;> rfl
  | choice =>
    simp only [choiceEffect, guardedEffect]
    repeat' split
    all_goals rfl
  | comment => rfl
  | back => rfl
  | command => cases line.excerpt? <;> rfl
  | jump => cases line.excerpt? <;> rfl
  | text => cases line.excerpt? <;> rfl

theorem failure_eq_none_iff (hfail : options.duplicates = .fail) :
    (line.effect options judge taken).failure = none ↔
      ∀ key, line.declared? options = some key → taken key = none := by
  constructor
  · intro hnone key hkey
    unfold declared? at hkey
    split at hkey
    next hscope =>
      obtain ⟨name, hname, rfl⟩ := Option.map_eq_some_iff.mp hkey
      simp only [effect, hscope.1, scopeEffect, if_neg hscope.2, hname, hfail] at hnone
      cases htaken : taken name.text with
      | none => rfl
      | some first =>
        rw [htaken] at hnone
        contradiction
    next => contradiction
  · intro h
    rw [effect_of_free h]
    exact failure_effect_of_free ..

theorem key?_growth_effect (options : Options) (judge : Query → Option Rejection) (line : Line) :
    (line.effect options judge fun _ => none).growth.key? = line.declared? options := by
  unfold effect declared?
  cases line.marker with
  | scope =>
    simp only [scopeEffect]
    split
    next hstrict =>
      rw [if_neg fun h => h.2 hstrict]
      rfl
    next hstrict =>
      rw [if_pos ⟨trivial, hstrict⟩]
      cases line.excerpt? <;> rfl
  | choice =>
    rw [if_neg fun h => Marker.noConfusion h.1]
    simp only [choiceEffect, guardedEffect]
    repeat' split
    all_goals rfl
  | comment => rfl
  | back => rfl
  | command => cases line.excerpt? <;> rfl
  | jump => cases line.excerpt? <;> rfl
  | text => cases line.excerpt? <;> rfl

/-- A line that is moved reports what it reported where it then stands, and adds what it added. -/
theorem effect_moved (options : Options) (judge : Query → Option Rejection) (count : Nat)
    (line : Line) :
    (line.moved count).effect options judge (fun _ => none) =
      (line.effect options judge fun _ => none).moved count := by
  have hcomplaint (column : Nat) (cause : Cause) :
      (line.moved count).complaint column cause = (line.complaint column cause).moved count := rfl
  have hmisaligned : (line.moved count).misaligned = line.misaligned.map (·.moved count) := by
    rw [misaligned, misaligned, depth_moved]
    split <;> rfl
  unfold effect
  rw [marker_moved]
  cases line.marker with
  | scope =>
    simp only [scopeEffect, hmisaligned, excerpt?_moved, depth_moved]
    split
    · rfl
    · cases line.excerpt? with
      | none => simp [Effect.moved, hcomplaint]
      | some name => rfl
  | choice =>
    simp only [choiceEffect, guardedEffect, excerpt?_moved]
    repeat' split
    all_goals rfl
  | back =>
    simp only [excerpt?_moved]
    cases line.excerpt? <;> rfl
  | comment => rfl
  | command =>
    simp only [excerpt?_moved]
    cases line.excerpt? <;> rfl
  | jump =>
    simp only [excerpt?_moved]
    cases line.excerpt? <;> rfl
  | text =>
    simp only [excerpt?_moved]
    cases line.excerpt? <;> rfl

end Line
end Dialogue
