import Milling.Data.Datum
import Milling.Decimal.Literal
/-!
Numbers in JSON.

An integer that fits 64 bits is read as it is. Any other number is read as a `Decimal` whose digits
fit 64 bits, and its double is computed from that in steps, each of them rounded (`scaled`). With at
most fifteen digits and a power of ten of at most 22 the only step that rounds is the last one, so
the double is the nearest to the number; past that it may be a neighbour of the nearest.
-/

namespace Milling.Json

/-! ### Parts of a number -/

/-- The digits after a point, none if there is no point; fails if no digit follows the point. -/
def spanFraction : List Char → Option (List Char × Bool × List Char)
  | '.' :: rest =>
    match Decimal.spanAscii rest with
    | ([], _) => none
    | (digits, rest) => some (digits, true, rest)
  | rest => some ([], false, rest)

/-- The exponent, 0 if there is none; fails if no digit follows the mark. -/
def spanExponent : List Char → Option (Int × Bool × List Char)
  | [] => some (0, false, [])
  | c :: rest =>
    if c == 'e' || c == 'E' then
      (Decimal.spanExponent rest).map fun (exponent, rest) => (exponent, true, rest)
    else some (0, false, c :: rest)

/-! ### Values -/

/-- Puts ASCII digits after those of an integer, up to the first that would take it beyond 64 bits;
also what is left of them. -/
def extend (n : Nat) : List Char → Nat × List Char
  | [] => (n, [])
  | c :: rest =>
    let m := 10 * n + (c.toNat - '0'.toNat)
    if m < wordBound then extend m rest else (n, c :: rest)

/-- The number with the given digits before and after its point, times a power of ten. Of the
digits before the point those without room count as zeros; from the first digit after the point
that has no room on, all are dropped. -/
def bounded (whole fraction : List Char) (exponent : Int) : Decimal :=
  let (n, zeros) := extend 0 whole
  let (n, dropped) := extend n fraction
  ⟨n, exponent + zeros.length - (fraction.length - dropped.length : Nat)⟩

/-- The greatest power of ten that is a finite double. -/
def greatestPower : Nat := 308

def power (k : Nat) : Float :=
  (Decimal.mk 1 k).toFloat

/-- A double divided by a power of ten, in as few steps as the doubles allow. -/
def divided (x : Float) (k : Nat) : Float :=
  if k ≤ greatestPower then x / power k
  else if x == 0.0 then x
  else divided (x / power greatestPower) (k - greatestPower)
termination_by k
decreasing_by all_goals simp_all [greatestPower]; omega

/-- The digits as a double, multiplied or divided by the power of ten. -/
def scaled (d : Decimal) : Float :=
  let x := Float.ofNat d.digits
  if d.exponent < 0 then divided x d.exponent.natAbs
  else if d.exponent ≤ greatestPower then x * power d.exponent.toNat
  else if d.digits = 0 then x
  else 1.0 / 0.0

/-- A number with a sign as data, if its double is finite. -/
def real (negative : Bool) (d : Decimal) : Datum :=
  let x := scaled d
  if x.isFinite then .real (if negative then -x else x) else .unusable

/-- An integer as data: within 64 bits as it is, else as a double. Minus zero is a double. -/
def whole (negative : Bool) (digits : List Char) : Datum :=
  let d := bounded digits [] 0
  if d.exponent = 0 ∧ negative = false then .whole d.digits
  else if d.exponent = 0 ∧ 0 < d.digits ∧ Int64.minValue.toInt ≤ -d.digits then .whole (-d.digits)
  else real negative d

/-- The number at the start of a text. A zero has no digit after it before the point. -/
def spanNumber (s : List Char) : Option (Datum × List Char) :=
  let negative := s.head? == some '-'
  let (digits, rest) := Decimal.spanAscii (if negative then s.tail else s)
  match digits with
  | [] => none
  | '0' :: _ :: _ => none
  | _ => do
    let (fraction, hasFraction, rest) ← spanFraction rest
    let (exponent, hasExponent, rest) ← spanExponent rest
    if hasFraction || hasExponent then
      some (real negative (bounded digits fraction exponent), rest)
    else some (whole negative digits, rest)

end Milling.Json
