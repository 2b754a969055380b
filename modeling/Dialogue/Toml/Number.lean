import Dialogue.Toml.Lexical

/-! Numbers as TOML writes them. -/
namespace Dialogue.Toml

def isGrouped (isDigit : Char → Bool) : List Char → Bool
  | [] => false
  | [c] => isDigit c
  | c :: '_' :: rest => isDigit c && isGrouped isDigit rest
  | c :: rest => isDigit c && isGrouped isDigit rest

def digitsIn (base : Nat) (c : Char) : Bool := (hexDigit? c).any (· < base)

def numeral (base : Nat) (text : List Char) : Nat :=
  (text.filterMap hexDigit?).foldl (fun value digit => base * value + digit) 0

def natural? (base : Nat) (text : List Char) : Option Nat :=
  if isGrouped (digitsIn base) text then some (numeral base text) else none

def isDecimal (text : List Char) : Bool :=
  isGrouped (digitsIn 10) text && (text.length == 1 || text.head? != some '0')

def splitSign : List Char → Bool × List Char
  | '-' :: rest => (true, rest)
  | '+' :: rest => (false, rest)
  | text => (false, text)

def signed (negative : Bool) (value : Nat) : Int := if negative then -(value : Int) else value

def integer? : List Char → Option Int
  | '0' :: 'x' :: rest => (natural? 16 rest).map Int.ofNat
  | '0' :: 'o' :: rest => (natural? 8 rest).map Int.ofNat
  | '0' :: 'b' :: rest => (natural? 2 rest).map Int.ofNat
  | text =>
    let (negative, digits) := splitSign text
    if isDecimal digits then (natural? 10 digits).map (signed negative) else none

def inRange (value : Int) : Bool := -Int.pow 2 63 ≤ value && value < Int.pow 2 63

structure Scientific where
  whole : List Char
  fraction : List Char
  exponent : List Char

namespace Scientific

def ofText (number : List Char) : Scientific :=
  let mantissa := number.takeWhile fun c => c ≠ 'e' ∧ c ≠ 'E'
  let whole := mantissa.takeWhile (· ≠ '.')
  { whole, fraction := mantissa.drop whole.length, exponent := number.drop mantissa.length }

def isWellFormed (number : Scientific) : Bool :=
  isDecimal number.whole &&
    (number.fraction.isEmpty || isGrouped (digitsIn 10) (number.fraction.drop 1)) &&
    (number.exponent.isEmpty || isGrouped (digitsIn 10) (splitSign (number.exponent.drop 1)).2) &&
    !(number.fraction.isEmpty && number.exponent.isEmpty)

def digits (number : Scientific) : List Char :=
  (number.whole ++ number.fraction).filter (digitsIn 10)

/-- The power of ten that the digits, read as an integer, are multiplied by. -/
def scale (number : Scientific) : Int :=
  let (negative, exponent) := splitSign (number.exponent.drop 1)
  signed negative (numeral 10 exponent) - (number.fraction.filter (digitsIn 10)).length

/-- Half a unit above the largest finite number with a significand of fifty-three bits
and an exponent of eleven. From here on, rounding leads to infinity. -/
def overflowBound : Nat := Nat.pow 2 1024 - Nat.pow 2 970

def overflowScale : Nat := 309

/-- Whether `value * 10 ^ scale` reaches the bound. Here `value` is less than
`10 ^ width`, so greater powers of ten than those used make no difference. -/
def overflows (value width : Nat) (scale : Int) : Bool :=
  overflowBound * Nat.pow 10 (min (-scale).toNat width) ≤
    value * Nat.pow 10 (min scale.toNat overflowScale)

theorem overflows_iff {value width : Nat} (h : value < Nat.pow 10 width) (scale : Int) :
    overflows value width scale = true ↔
      overflowBound * Nat.pow 10 (-scale).toNat ≤ value * Nat.pow 10 scale.toNat := by
  have hpos : 0 < overflowBound := by decide +kernel
  have hbound : overflowBound ≤ 10 ^ overflowScale := by decide +kernel
  rw [overflows, decide_eq_true_iff]
  simp only [Nat.pow_eq] at h ⊢
  generalize overflowScale = top at hbound ⊢
  rcases Int.le_total 0 scale with hscale | hscale
  · rw [show (-scale).toNat = 0 by omega, Nat.zero_min]
    rcases Nat.le_total scale.toNat top with hup | hup
    · rw [Nat.min_eq_left hup]
    · rw [Nat.min_eq_right hup]
      rcases Nat.eq_zero_or_pos value with rfl | hvalue
      · rw [Nat.zero_mul, Nat.zero_mul]
      · have hstep (n : Nat) : 10 ^ n ≤ value * 10 ^ n := Nat.le_mul_of_pos_left _ hvalue
        have hmono : (10 : Nat) ^ top ≤ 10 ^ scale.toNat :=
          Nat.pow_le_pow_right (by decide) hup
        rw [Nat.pow_zero, Nat.mul_one]
        exact iff_of_true (Nat.le_trans hbound (hstep top))
          (Nat.le_trans (Nat.le_trans hbound hmono) (hstep scale.toNat))
  · rw [show scale.toNat = 0 by omega, Nat.zero_min]
    rcases Nat.le_total (-scale).toNat width with hdown | hdown
    · rw [Nat.min_eq_left hdown]
    · rw [Nat.min_eq_right hdown]
      have hstep (n : Nat) : 10 ^ n ≤ overflowBound * 10 ^ n := Nat.le_mul_of_pos_left _ hpos
      have hmono : (10 : Nat) ^ width ≤ 10 ^ (-scale).toNat :=
        Nat.pow_le_pow_right (by decide) hdown
      rw [Nat.pow_zero, Nat.mul_one]
      exact iff_of_false (Nat.not_le.mpr (Nat.lt_of_lt_of_le h (hstep _)))
        (Nat.not_le.mpr (Nat.lt_of_lt_of_le h (Nat.le_trans hmono (hstep _))))

def isFinite (number : Scientific) : Bool :=
  !overflows (numeral 10 number.digits) number.digits.length number.scale

end Scientific

def isSpecial (number : List Char) : Bool :=
  number == ['i', 'n', 'f'] || number == ['n', 'a', 'n']

def isFraction (text : List Char) : Bool :=
  let number := (splitSign text).2
  isSpecial number || (Scientific.ofText number).isWellFormed

def isBounded (fraction : List Char) : Bool :=
  let number := (splitSign fraction).2
  isSpecial number || (Scientific.ofText number).isFinite

end Dialogue.Toml
