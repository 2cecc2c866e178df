import Milling.Decimal.Shortest
import Milling.Binary64.Plane
/-!
How numbers are written: layouts of the shortest decimal, and numbers with a fixed count of digits.
-/

namespace Milling.Decimal

/-- The choices a format makes for the shortest decimal of a number. -/
structure Layout where
  /-- Powers of ten of the leading digit that are written without an exponent; outside, the number
  is written with one. `none` means always without. -/
  positional : Option (Int × Int)
  /-- A number without fraction ends in `.0`. -/
  keepPoint : Bool
  /-- An exponent that is not negative has a plus sign. -/
  plusSign : Bool
  /-- Of two shortest decimals that are equally near the number the greater is written, else the
  one with the even last digit. -/
  halfUp : Bool
  /-- The word for NaN. -/
  nan : String
deriving Inhabited

/-- Digits without an exponent. -/
def Layout.plain (style : Layout) (d : Decimal) : List Char :=
  let digits := text d.digits
  if 0 ≤ d.exponent then
    digits ++ List.replicate d.exponent.toNat '0' ++ (if style.keepPoint then ['.', '0'] else [])
  else
    let places := d.exponent.natAbs
    let padded := List.replicate (places + 1 - digits.length) '0' ++ digits
    padded.take (padded.length - places) ++ '.' :: padded.drop (padded.length - places)

/-- One digit, the other digits after a point, and the power of ten. -/
def Layout.scientific (style : Layout) (d : Decimal) (power : Int) : List Char :=
  let mantissa := match text d.digits with
    | [] => []
    | [c] => [c]
    | c :: rest => c :: '.' :: rest
  let sign := if power < 0 then ['-'] else if style.plusSign then ['+'] else []
  mantissa ++ 'e' :: sign ++ text power.natAbs

def power (d : Decimal) : Int :=
  (text d.digits).length - 1 + d.exponent

def Layout.magnitude (style : Layout) (d : Decimal) : List Char :=
  match style.positional with
  | none => style.plain d
  | some (least, greatest) =>
    if d.digits = 0 ∨ (least ≤ d.power ∧ d.power ≤ greatest) then style.plain d
    else style.scientific d d.power

def Layout.write (style : Layout) (x : Float) : String :=
  match ofFloat? style.halfUp x with
  | some d => String.ofList ((if Binary64.isMinus x then ['-'] else []) ++ style.magnitude d)
  | none => if x.isNaN then style.nan else if x < 0.0 then "-inf" else "inf"

/-- Messages write numbers with all digits before the point and none that are not needed. -/
def inMessage : Layout := ⟨none, false, false, true, "NaN"⟩

/-- Listings write `.0` after integers and turn to an exponent below `1e-4` and from `1e16` on. -/
def inListing : Layout := ⟨some (-4, 15), true, false, true, "NaN"⟩

/-! ### A fixed count of digits -/

/-- The integer nearest to `n / d`; a half goes to the even neighbour. -/
def roundEven (n d : Nat) : Nat :=
  let q := n / d
  let twice := 2 * (n % d)
  if twice < d then q
  else if d < twice then q + 1
  else if q % 2 = 0 then q else q + 1

def wordFor (x : Float) : String :=
  if x.isNaN then "NaN" else if x < 0.0 then "-inf" else "inf"

/-- A number with the given count of decimal places. The sign of a negative number stays when it
rounds to zero. -/
def fixed (places : Nat) (x : Float) : String :=
  match Binary64.decode? x with
  | none => wordFor x
  | some e =>
    let (n, d) := e.overPower (-places)
    let digits := text (roundEven n d)
    let padded := List.replicate (places + 1 - digits.length) '0' ++ digits
    let whole := padded.take (padded.length - places)
    let fraction := padded.drop (padded.length - places)
    String.ofList ((if e.negative then ['-'] else []) ++ whole ++
      (if places = 0 then [] else '.' :: fraction))

/-- A number that is not zero with the given count of digits after its leading digit, and its power
of ten. -/
def significant (places : Nat) (x : Float) : String :=
  match Binary64.decode? x with
  | none => wordFor x
  | some e =>
    let (n, d) := e.overPower (e.leading - places)
    let rounded := roundEven n d
    let carried := rounded = Nat.pow 10 (places + 1)
    let digits := text (if carried then Nat.pow 10 places else rounded)
    let shown := if carried then e.leading + 1 else e.leading
    String.ofList ((if e.negative then ['-'] else []) ++ digits.take 1 ++
      (if places = 0 then [] else '.' :: digits.drop 1) ++ 'e' ::
      (if shown < 0 then ['-'] else []) ++ text shown.natAbs)

end Milling.Decimal
