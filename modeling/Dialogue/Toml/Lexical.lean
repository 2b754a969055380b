/-! The characters of a TOML document: blanks, comments, line ends, quoted text
and keys. -/
namespace Dialogue.Toml

/-- Reads something at the start of a text and returns it with the text after it. -/
abbrev Reads (α : Type) := List Char → Option (α × List Char)

def isSpace (c : Char) : Bool := c = ' ' || c = '\t'

def isPlain (c : Char) : Bool := c = '\t' || (' ' ≤ c && c ≠ '\x7f')

def skipSpaces (text : List Char) : List Char := text.dropWhile isSpace

def skipComment : List Char → List Char
  | '#' :: rest => rest.dropWhile isPlain
  | text => text

def lineEnd? (text : List Char) : Option (List Char) :=
  match skipComment (skipSpaces text) with
  | [] => some []
  | '\n' :: rest => some rest
  | '\r' :: '\n' :: rest => some rest
  | _ => none

def skipGap (inComment : Bool) : List Char → List Char
  | [] => []
  | '\n' :: rest => skipGap false rest
  | '\r' :: '\n' :: rest => skipGap false rest
  | c :: rest =>
    if inComment && isPlain c then skipGap true rest
    else if !inComment && isSpace c then skipGap false rest
    else if !inComment && c = '#' then skipGap true rest
    else c :: rest

def keep (c : Char) (read : List Char × List Char) : List Char × List Char :=
  (c :: read.1, read.2)

/-- The characters up to the closing quote, as they are written. Where `escapes`
holds, a backslash hides the quote or backslash after it. A string of several
lines ends at three quotes, and up to two more belong to its text. -/
def quoted? (quote : Char) (escapes multiline : Bool) : Reads (List Char)
  | [] => none
  | c :: rest =>
    if c = quote then
      if multiline then
        match rest with
        | a :: b :: after =>
          if a = quote ∧ b = quote then
            let more := (after.takeWhile (· = quote)).take 2
            some (more, after.drop more.length)
          else (quoted? quote escapes multiline (a :: b :: after)).map (keep c)
        | _ => none
      else some ([], rest)
    else if escapes ∧ c = '\\' then
      match rest with
      | e :: after =>
        if e = quote ∨ e = '\\' then
          (quoted? quote escapes multiline after).map fun read => keep c (keep e read)
        else (quoted? quote escapes multiline (e :: after)).map (keep c)
      | [] => none
    else if isPlain c ∨ (multiline ∧ (c = '\n' ∨ (c = '\r' ∧ rest.head? = some '\n'))) then
      (quoted? quote escapes multiline rest).map (keep c)
    else none

def hexDigit? (c : Char) : Option Nat :=
  if '0' ≤ c ∧ c ≤ '9' then some (c.toNat - 48)
  else if 'a' ≤ c ∧ c ≤ 'f' then some (c.toNat - 87)
  else if 'A' ≤ c ∧ c ≤ 'F' then some (c.toNat - 55)
  else none

def codePoint? (digits : List Char) : Option Char := do
  let values ← digits.mapM hexDigit?
  let code := values.foldl (fun code digit => 16 * code + digit) 0
  if code.isValidChar then some (Char.ofNat code) else none

/-- The character coded by the first `width` digits after a letter, and how much is
used together with the letter. -/
def coded? (width : Nat) (text : List Char) : Option (Char × Nat) :=
  let digits := text.take width
  if digits.length = width then (codePoint? digits).map fun c => (c, width + 1) else none

def escape? : List Char → Option (Char × Nat)
  | 'b' :: _ => some ('\x08', 1)
  | 'e' :: _ => some ('\x1b', 1)
  | 't' :: _ => some ('\t', 1)
  | 'n' :: _ => some ('\n', 1)
  | 'f' :: _ => some ('\x0c', 1)
  | 'r' :: _ => some ('\r', 1)
  | '"' :: _ => some ('"', 1)
  | '\\' :: _ => some ('\\', 1)
  | 'x' :: rest => coded? 2 rest
  | 'u' :: rest => coded? 4 rest
  | 'U' :: rest => coded? 8 rest
  | _ => none

def isLineBreak (c : Char) : Bool := c = '\n' || c = '\r'

/-- Resolves the escapes of a string. In a string of several lines a backslash at
the end of a line removes all blanks and line ends up to the next text. -/
def unescape? (multiline : Bool) : List Char → Option (List Char)
  | [] => some []
  | '\\' :: rest =>
    if multiline && ((skipSpaces rest).head?.any isLineBreak) then
      unescape? multiline (rest.dropWhile fun c => isSpace c || isLineBreak c)
    else
      match escape? rest with
      | none => none
      | some (c, used) => (unescape? multiline (rest.drop used)).map (c :: ·)
  | c :: rest => (unescape? multiline rest).map (c :: ·)
termination_by text => text.length
decreasing_by
  · have := (List.dropWhile_sublist (fun c => isSpace c || isLineBreak c) (l := rest)).length_le
    simp only [List.length_cons]
    omega
  · simp only [List.length_cons, List.length_drop]
    omega
  · simp

def dropFirstBreak : List Char → List Char
  | '\n' :: rest => rest
  | '\r' :: '\n' :: rest => rest
  | text => text

def basic? (multiline : Bool) (text : List Char) : Option (String × List Char) := do
  let (raw, rest) ← quoted? '"' true multiline text
  let chars ← unescape? multiline raw
  some (String.ofList chars, rest)

def literal? (multiline : Bool) (text : List Char) : Option (String × List Char) :=
  (quoted? '\x27' false multiline text).map fun (raw, rest) => (String.ofList raw, rest)

def string? : Reads String
  | '"' :: '"' :: '"' :: rest => basic? true (dropFirstBreak rest)
  | '"' :: rest => basic? false rest
  | '\x27' :: '\x27' :: '\x27' :: rest => literal? true (dropFirstBreak rest)
  | '\x27' :: rest => literal? false rest
  | _ => none

def isBare (c : Char) : Bool := c.isAlphanum || c = '_' || c = '-'

def simpleKey? : Reads String
  | '"' :: rest => basic? false rest
  | '\x27' :: rest => literal? false rest
  | text =>
    let bare := text.takeWhile isBare
    if bare.isEmpty then none else some (String.ofList bare, text.drop bare.length)

structure Key where
  path : List String
  last : String

def Key.parts (key : Key) : List String := key.path ++ [key.last]

/-- How deep tables may be nested by one key, and arrays and inline tables by one value. -/
def nestingLimit : Nat := 80

def keyFrom? (part : String) : Nat → Reads Key
  | 0, _ => none
  | limit + 1, text =>
    match skipSpaces text with
    | '.' :: rest => do
      let (next, rest) ← simpleKey? (skipSpaces rest)
      let (key, rest) ← keyFrom? next limit rest
      some ({ key with path := part :: key.path }, rest)
    | rest => some (⟨[], part⟩, rest)

def key? (text : List Char) : Option (Key × List Char) := do
  let (part, rest) ← simpleKey? (skipSpaces text)
  keyFrom? part nestingLimit rest

end Dialogue.Toml
