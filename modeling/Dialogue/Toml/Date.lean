import Dialogue.Toml.Number

/-! Dates and times of day, read into the one form in which they are kept. -/
namespace Dialogue.Toml

def fixed? (width : Nat) (text : List Char) : Option Nat :=
  if text.length = width ∧ text.all (digitsIn 10) then natural? 10 text else none

def daysIn (year month : Nat) : Nat :=
  if month = 2 then
    if year % 4 = 0 ∧ (year % 100 ≠ 0 ∨ year % 400 = 0) then 29 else 28
  else if month = 4 ∨ month = 6 ∨ month = 9 ∨ month = 11 then 30 else 31

def isDay (text : List Char) : Bool :=
  text.length == 10 && text[4]? == some '-' && text[7]? == some '-' &&
    match fixed? 4 (text.take 4), fixed? 2 ((text.drop 5).take 2), fixed? 2 (text.drop 8) with
    | some year, some month, some day =>
      1 ≤ month && month ≤ 12 && 1 ≤ day && day ≤ daysIn year month
    | _, _, _ => false

/-- Fractions of a second, to nine places and without zeros at the end. -/
def secondsFraction? : List Char → Option (List Char)
  | [] => some []
  | '.' :: digits =>
    if digits.isEmpty || !digits.all (digitsIn 10) then none
    else
      let kept := ((digits.take 9).reverse.dropWhile (· = '0')).reverse
      some (if kept.isEmpty then [] else '.' :: kept)
  | _ => none

/-- A time of day, in its shortest form. A time without seconds is at the full minute. -/
def time? (text : List Char) : Option (List Char) :=
  let text := if text.length = 5 then text ++ [':', '0', '0'] else text
  if text[2]? = some ':' ∧ text[5]? = some ':' then
    match fixed? 2 (text.take 2), fixed? 2 ((text.drop 3).take 2),
      fixed? 2 ((text.drop 6).take 2) with
    | some hour, some minute, some second =>
      if hour < 24 ∧ minute < 60 ∧ second ≤ 60 then
        (secondsFraction? (text.drop 8)).map (text.take 8 ++ ·)
      else none
    | _, _, _ => none
  else none

def offset? : List Char → Option (List Char)
  | [] => some []
  | ['Z'] => some ['Z']
  | ['z'] => some ['Z']
  | [sign, a, b, ':', c, d] =>
    match fixed? 2 [a, b], fixed? 2 [c, d] with
    | some hours, some minutes =>
      if (sign = '+' ∨ sign = '-') ∧ hours < 24 ∧ minutes < 60 then
        some [if hours = 0 ∧ minutes = 0 then '+' else sign, a, b, ':', c, d]
      else none
    | _, _ => none
  | _ => none

def isTimeChar (c : Char) : Bool := digitsIn 10 c || c = ':' || c = '.'

def date? (text : List Char) : Option (List Char) :=
  if isDay (text.take 10) then
    match text.drop 10 with
    | [] => some text
    | mark :: rest =>
      if mark = 'T' ∨ mark = 't' ∨ mark = ' ' then do
        let time ← time? (rest.takeWhile isTimeChar)
        let offset ← offset? (rest.dropWhile isTimeChar)
        some (text.take 10 ++ 'T' :: (time ++ offset))
      else none
  else time? text

end Dialogue.Toml
