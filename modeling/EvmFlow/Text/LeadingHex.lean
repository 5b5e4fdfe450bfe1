import EvmFlow.Text.Hex

/-!
# The hexadecimal number at the start of a text

A text is read from the left: an optional sign, an optional mark `0x` or `0X`,
and then as many hexadecimal digits as there are. What follows the digits is
ignored; without a digit there is no number. The number is kept to 53
significant bits, a tie going to the even neighbour.
-/

namespace EvmFlow.Text.LeadingHex

/-- The significant bits that are kept. -/
def precision : Nat := 53

/-- The natural number nearest to `n` that has at most `bits` significant
    bits, the one with an even last bit if two are equally near. -/
def nearest (bits n : Nat) : Nat :=
  let unit := Nat.pow 2 (n.log2 + 1 - bits)
  let quotient := n / unit
  let twice := 2 * (n % unit)
  if unit < twice ∨ unit = twice ∧ quotient % 2 = 1 then (quotient + 1) * unit
  else quotient * unit

/-- A text without its sign, and whether the sign is a minus. -/
def sign : List Char → Bool × List Char
  | '-' :: text => (true, text)
  | '+' :: text => (false, text)
  | text => (false, text)

/-- A text without the mark of base sixteen at its start, if it has one. -/
def unmarked : List Char → List Char
  | '0' :: 'x' :: text => text
  | '0' :: 'X' :: text => text
  | text => text

/-- The number written by hexadecimal digits. -/
def value (digits : List Char) : Nat :=
  digits.foldl (fun n c => 16 * n + (Hex.digitValue? c).getD 0) 0

/-- The number at the start of a text, none if there is no digit. -/
def read? (text : List Char) : Option Int :=
  let (negative, rest) := sign text
  match (unmarked rest).takeWhile Hex.isDigit with
  | [] => none
  | digits =>
    let n := nearest precision (value digits)
    some (if negative then -n else n)

/-- The number at the start of a text as a byte: modulo 256, and zero if there
    is none. -/
def byte (text : List Char) : UInt8 := UInt8.ofInt ((read? text).getD 0)

end EvmFlow.Text.LeadingHex
