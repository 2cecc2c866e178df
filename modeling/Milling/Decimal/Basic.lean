/-!
Decimal numbers `digits · 10 ^ exponent` and the double nearest to one.

Every number that is read becomes a `Decimal` first, and every number that is written is chosen as
a `Decimal` first, so reading back what was written is a statement about one function on decimals:
`toFloat`, or `Json.scaled` for JSON.
-/

namespace Milling

/-- The number `digits · 10 ^ exponent`. -/
structure Decimal where
  digits : Nat
  exponent : Int
deriving DecidableEq, Inhabited

namespace Decimal

/-- The same number with no zero at the end of its digits; zero has exponent 0. -/
def trimmed (digits : Nat) (exponent : Int) : Decimal :=
  if h : digits = 0 then ⟨0, 0⟩
  else if digits % 10 = 0 then trimmed (digits / 10) (exponent + 1)
  else ⟨digits, exponent⟩
termination_by digits
decreasing_by omega

/-- The form of the number that has no zero at the end of its digits. -/
def normal (d : Decimal) : Decimal :=
  trimmed d.digits d.exponent

/-- The double nearest to the number, infinity if it is too large for every finite double. Powers
of ten far outside the range of doubles are not raised. -/
def toFloat (d : Decimal) : Float :=
  let n := d.normal
  if 310 < n.exponent then 1.0 / 0.0
  else if n.exponent + n.digits.log2 < -330 then 0.0
  else Float.ofScientific n.digits (n.exponent < 0) n.exponent.natAbs

def text (n : Nat) : List Char :=
  Nat.toDigits 10 n

/-- The number that a list of ASCII digits stands for. -/
def value (s : List Char) : Nat :=
  Nat.ofDigitChars 10 s 0

end Decimal

end Milling
