import Dialogue.Log
import Dialogue.Settings.Options
import Dialogue.Toml.Document

/-! The settings of a program: a table that is set once and read ever after. A
missing file or a faulty text sets the empty table; a file that holds no text sets
nothing, so another source may still be tried. The store takes any reader of texts;
the program's own reads TOML. -/
namespace Dialogue.Settings

inductive Source
  | text (content : String)
  | file (content : ByteArray)
  | missingFile

inductive SetupError
  | notText
  | alreadySet
  deriving Repr, DecidableEq

def SetupError.message : SetupError → String
  | notText => "stream did not contain valid UTF-8"
  | alreadySet => "Config already initialized"

structure Store where
  table : Option Table := none

/-- The table of a text, and the level of the message about it, if any. What reads the text
is given: it answers `none` to a faulty one. -/
def tableOf (parse : String → Option Table) (content : String) : Table × List Level :=
  match parse content with
  | some table => (table, [])
  | none => ([], [.error])

def Source.read : Source → Except SetupError String × List Level
  | text content => (.ok content, [])
  | missingFile => (.ok "", [.warn])
  | file content =>
    match String.fromUTF8? content with
    | some content => (.ok content, [.info])
    | none => (.error .notText, [.info])

namespace Store

def isSet (store : Store) : Bool := store.table.isSome

/-- Sets the table, unless there is one. The text is looked at in any case. -/
def setupWith (parse : String → Option Table) (store : Store) (source : Source) :
    Except SetupError Unit × List Level × Store :=
  match source.read with
  | (.error error, levels) => (.error error, levels, store)
  | (.ok content, levels) =>
    let (table, more) := tableOf parse content
    match store.table with
    | some _ => (.error .alreadySet, levels ++ more, store)
    | none => (.ok (), levels ++ more, ⟨some table⟩)

def setup (store : Store) (source : Source) : Except SetupError Unit × List Level × Store :=
  store.setupWith Toml.parse? source

/-- The value of a key in the wanted type. The default stands in for what is
missing and for what does not fit; only the latter is worth a warning. -/
def get (store : Store) (read : Value → Option α) (otherwise : α) (key : String) :
    α × List Level :=
  match store.table.bind (·.lookup key) with
  | none => (otherwise, [])
  | some value =>
    match read value with
    | some result => (result, [])
    | none => (otherwise, [.warn])

def options (store : Store) (key : String) : Options × List Level :=
  store.get (Options.ofValue? Value.isEmptyGroup) {} key

def parserOptions (store : Store) : Options × List Level := store.options "parser"

end Store
end Dialogue.Settings
