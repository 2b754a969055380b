import Dialogue.Toml.Admission
import Dialogue.Toml.Assembly
import Dialogue.Toml.Scalar

/-! Reading a TOML document into a table. Any fault refuses the whole document. -/
namespace Dialogue.Toml

open Settings (Value Table)

def items? (one : Reads Value) : Nat → Reads (List Value)
  | 0, _ => none
  | count + 1, text =>
    match skipGap false text with
    | ']' :: rest => some ([], rest)
    | text => do
      let (item, rest) ← one text
      match skipGap false rest with
      | ']' :: rest => some ([item], rest)
      | ',' :: rest =>
        let (more, rest) ← items? one count rest
        some (item :: more, rest)
      | _ => none

def pair? (skip : List Char → List Char) (one : Reads Value) (text : List Char) :
    Option ((Key × Value) × List Char) := do
  let (key, rest) ← key? text
  match skip rest with
  | '=' :: rest =>
    let (value, rest) ← one (skip rest)
    some ((key, value), rest)
  | _ => none

/-- The pairs of an inline table, up to its closing brace. Its lines may end wherever
a blank may stand, but not inside a key. -/
def pairs? (one : Reads Value) : Nat → Reads (List (Key × Value))
  | 0, _ => none
  | count + 1, text =>
    match skipGap false text with
    | '\x7d' :: rest => some ([], rest)
    | text => do
      let (pair, rest) ← pair? (skipGap false) one text
      match skipGap false rest with
      | '\x7d' :: rest => some ([pair], rest)
      | ',' :: rest =>
        let (more, rest) ← pairs? one count rest
        some (pair :: more, rest)
      | _ => none

/-- A value. The number bounds how deep arrays and inline tables are nested in it. -/
def value? : Nat → Reads Value
  | levels, '[' :: rest =>
    match levels with
    | 0 => none
    | levels + 1 => (items? (value? levels) (rest.length + 1) rest).map fun (items, rest) =>
        (.array items, rest)
  | levels, '\x7b' :: rest =>
    match levels with
    | 0 => none
    | levels + 1 => do
      let (pairs, rest) ← pairs? (value? levels) (rest.length + 1) rest
      let table ← inlineTable? pairs
      some (table, rest)
  | _, '"' :: rest => (string? ('"' :: rest)).map fun (text, rest) => (.string text, rest)
  | _, '\x27' :: rest => (string? ('\x27' :: rest)).map fun (text, rest) => (.string text, rest)
  | _, text =>
    let chars := word text
    (scalar? chars).map fun value => (value, text.drop chars.length)

inductive Statement
  /-- The header of a table. -/
  | table (key : Key)
  /-- The header of an element of an array of tables. -/
  | element (key : Key)
  | entry (key : Key) (value : Value)

def statement? : Reads Statement
  | '[' :: '[' :: rest => do
    let (key, rest) ← key? rest
    match rest with
    | ']' :: ']' :: rest => some (.element key, rest)
    | _ => none
  | '[' :: rest => do
    let (key, rest) ← key? rest
    match rest with
    | ']' :: rest => some (.table key, rest)
    | _ => none
  | text => (pair? skipSpaces (value? nestingLimit) text).map fun ((key, value), rest) =>
      (.entry key value, rest)

def statements? : Nat → List Char → Option (List Statement)
  | _, [] => some []
  | 0, _ => none
  | lines + 1, text =>
    match lineEnd? text with
    | some rest => statements? lines rest
    | none => do
      let (statement, rest) ← statement? (skipSpaces text)
      let rest ← lineEnd? rest
      let more ← statements? lines rest
      some (statement :: more)

structure Assembly where
  entries : Entries := []
  header : List String := []

def Assembly.add (assembly : Assembly) : Statement → Option Assembly
  | .table key => do
    let entries ← assembly.entries.openTable key
    some { entries, header := key.parts }
  | .element key => do
    let entries ← assembly.entries.openElement key
    some { entries, header := key.parts }
  | .entry key value => do
    let entries ← assembly.entries.descend false (fun _ => Entries.put key value)
      assembly.header .declared
    some { assembly with entries }

def skipByteOrderMark : List Char → List Char
  | '\uFEFF' :: rest => rest
  | text => text

def parse? (source : String) : Option Table := do
  let text := skipByteOrderMark source.toList
  let statements ← statements? (text.length + 1) text
  let assembly ← statements.foldlM Assembly.add {}
  entriesAdmitted? (entriesToTable assembly.entries)

end Dialogue.Toml
