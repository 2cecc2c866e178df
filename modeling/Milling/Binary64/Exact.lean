/-!
The exact value of a finite double, and the roundings of it that the rest of the library needs.

A finite double is `± mantissa · 2 ^ exponent` with natural `mantissa`, so every question about it
(its floor, its nearest integer, its decimal digits) is a question about natural numbers. Nothing
here goes through the floating-point environment.
-/

namespace Milling.Binary64

/-- The number `± mantissa · 2 ^ exponent`. -/
structure Exact where
  negative : Bool
  mantissa : Nat
  exponent : Int
deriving DecidableEq, Inhabited

/-- The exact value of a finite double; infinities and NaN have none. Both zeros have mantissa 0
and keep their sign. -/
def decode? (x : Float) : Option Exact :=
  match x.toModel.unpack with
  | .notANumber => none
  | .infinity _ => none
  | .zero sign => some ⟨sign == .negative, 0, 0⟩
  | .finite sign mantissa exponent _ => some ⟨sign == .negative, mantissa, exponent⟩

namespace Exact

/-- Numerator of the magnitude as a quotient of natural numbers. -/
def numerator (e : Exact) : Nat :=
  if 0 ≤ e.exponent then e.mantissa <<< e.exponent.toNat else e.mantissa

/-- Denominator of the magnitude as a quotient of natural numbers; never zero. -/
def denominator (e : Exact) : Nat :=
  if 0 ≤ e.exponent then 1 else 1 <<< e.exponent.natAbs

def floorMagnitude (e : Exact) : Nat :=
  e.numerator / e.denominator

def ceilMagnitude (e : Exact) : Nat :=
  (e.numerator + (e.denominator - 1)) / e.denominator

/-- The natural number nearest to the magnitude; a half goes up. -/
def nearestMagnitude (e : Exact) : Nat :=
  (2 * e.numerator + e.denominator) / (2 * e.denominator)

end Exact

/-! ### Integers from doubles

A number below zero and everything that is not finite count as 0. -/

def floorNat (x : Float) : Nat :=
  match decode? x with
  | some e => if e.negative then 0 else e.floorMagnitude
  | none => 0

def ceilNat (x : Float) : Nat :=
  match decode? x with
  | some e => if e.negative then 0 else e.ceilMagnitude
  | none => 0

/-- The nearest integer to a number that is not negative; a half goes up. -/
def nearestNat (x : Float) : Nat :=
  match decode? x with
  | some e => if e.negative then 0 else e.nearestMagnitude
  | none => 0

/-! ### Doubles from doubles -/

/-- The double nearest to `n · 2 ^ exponent`; a tie goes to the even mantissa. -/
def ofScaled (n : Nat) (exponent : Int) : Float :=
  if 0 ≤ exponent then Float.ofScientific (n <<< exponent.toNat) false 0
  else Float.ofScientific (n * Nat.pow 5 exponent.natAbs) true exponent.natAbs

/-- The greatest integer not above `x`, as a double. Infinities and NaN stay. -/
def floor (x : Float) : Float :=
  match decode? x with
  | some e =>
    if e.negative then -(Float.ofNat e.ceilMagnitude) else Float.ofNat e.floorMagnitude
  | none => x

/-- The remainder of `x` by `y` with the sign of `x`, exact for finite arguments. It is NaN if `x`
is not finite or `y` is zero or NaN. -/
def remainder (x y : Float) : Float :=
  match decode? x, decode? y with
  | some a, some b =>
    if b.mantissa = 0 then 0.0 / 0.0
    else
      let low := min a.exponent b.exponent
      let m := a.mantissa <<< (a.exponent - low).toNat
      let n := b.mantissa <<< (b.exponent - low).toNat
      let magnitude := ofScaled (m % n) low
      if a.negative then -magnitude else magnitude
  | some _, none => if y.isNaN then y else x
  | none, _ => 0.0 / 0.0

end Milling.Binary64
