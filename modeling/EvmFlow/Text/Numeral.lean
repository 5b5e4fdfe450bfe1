/-!
# Numerals

Numbers written in a base up to sixteen: the digits without leading zeros,
lower-case letters from ten on, a minus sign before a negative number, and a
point before the digits of a fraction.
-/

namespace EvmFlow.Text

/-- The digits of an integer in a base, after a minus sign if it is
    negative. -/
def numeral (base : Nat) : Int → List Char
  | .ofNat n => Nat.toDigits base n
  | .negSucc n => '-' :: Nat.toDigits base (n + 1)

/-- The digits of the fraction `rest / size`, which is below one, up to the last
    one that is not zero, and at most `places` of them. -/
def fraction (base size : Nat) : (places rest : Nat) → List Char
  | 0, _ => []
  | places + 1, rest =>
    if rest = 0 then []
    else Nat.digitChar (base * rest / size) :: fraction base size places (base * rest % size)

/-- The most digits behind the point. In base sixteen, no number of double
    precision has more. -/
def fractionPlaces : Nat := 269

/-- The digits of a number in a base: those of its whole part, after a minus sign
    if it is negative, and those of its fraction behind a point, if it has one. -/
def number (base : Nat) (q : Rat) : List Char :=
  let whole := q.num.natAbs / q.den
  let rest := q.num.natAbs % q.den
  (if q.num < 0 then ['-'] else []) ++ Nat.toDigits base whole ++
    if rest = 0 then [] else '.' :: fraction base q.den fractionPlaces rest

/-- An integer in base ten. -/
def decimal (n : Int) : String := String.ofList (numeral 10 n)

/-- A numeral filled up with zeros on the left to a given width. -/
def zeroFilled (width : Nat) (text : List Char) : List Char :=
  List.replicate (width - text.length) '0' ++ text

end EvmFlow.Text
