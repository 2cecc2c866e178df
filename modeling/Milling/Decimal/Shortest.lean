import Milling.Binary64.Exact
import Milling.Decimal.Basic
/-!
The shortest decimal that reads back to a given double.

For 1, 2, … 17 digits the two neighbours of the number on the grid of that many digits are tried,
the nearer first; the first that reads back is taken. Seventeen digits always suffice; the exact
expansion stands behind them, so the answer reads back in any case.
-/

namespace Milling.Binary64.Exact

/-- The power of ten of the leading digit of a magnitude that is not zero. -/
def leading (e : Exact) : Int :=
  if e.denominator ≤ e.numerator then
    (Decimal.text (e.numerator / e.denominator)).length - 1
  else
    -((Decimal.text ((e.denominator - 1) / e.numerator)).length : Int)

def overPower (e : Exact) (power : Int) : Nat × Nat :=
  if 0 ≤ power then (e.numerator, e.denominator * Nat.pow 10 power.toNat)
  else (e.numerator * Nat.pow 10 power.natAbs, e.denominator)

/-- The two multiples of `10 ^ power` around the magnitude, the nearer first. If both are equally
near, the greater comes first if `halfUp` is set, else the one with the even last digit. -/
def neighbours (e : Exact) (halfUp : Bool) (power : Int) : List Decimal :=
  let (n, d) := e.overPower power
  let lower : Decimal := ⟨n / d, power⟩
  let upper : Decimal := ⟨n / d + 1, power⟩
  let twice := 2 * (n % d)
  if d < twice || (twice == d && (halfUp || n / d % 2 == 1)) then [upper, lower]
  else [lower, upper]

def expansion (e : Exact) : Decimal :=
  if 0 ≤ e.exponent then ⟨e.numerator, 0⟩
  else ⟨e.mantissa * Nat.pow 5 e.exponent.natAbs, e.exponent⟩

end Milling.Binary64.Exact

namespace Milling.Decimal

/-- The shortest decimal that reads back to the magnitude of `x`, and of these the nearest to it;
`halfUp` decides between two that are equally near. `none` for infinities and NaN. -/
def ofFloat? (halfUp : Bool) (x : Float) : Option Decimal :=
  (Binary64.decode? x).map fun e =>
    if e.mantissa = 0 then ⟨0, 0⟩
    else
      let found := (List.range 17).findSome? fun extra =>
        (e.neighbours halfUp (e.leading - extra)).find? fun d => d.toFloat == x.abs
      (found.getD e.expansion).normal

end Milling.Decimal
