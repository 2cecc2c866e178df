import Milling.Decimal.Basic
/-!
Reading numbers written in decimal.

A *literal* is digits with at most one point among, before or after them, and optionally an
exponent. `Float.ofText?` reads a whole text as a literal with a sign, or as one of the words for
infinity and NaN.
-/

namespace Milling.Decimal

/-- The ASCII digits at the start of a text, and what follows them. -/
def spanAscii (s : List Char) : List Char × List Char :=
  (s.takeWhile Char.isDigit, s.dropWhile Char.isDigit)

/-- The number whose digits are `whole` before the point and `fraction` after it, times a power of
ten. -/
def ofParts (whole fraction : List Char) (exponent : Int) : Decimal :=
  ⟨value (whole ++ fraction), exponent - fraction.length⟩

/-- Reads `[+-]digits` and what follows it. -/
def spanExponent (s : List Char) : Option (Int × List Char) :=
  let (sign, rest) : Int × List Char := match s with
    | '+' :: r => (1, r)
    | '-' :: r => (-1, r)
    | r => (1, r)
  match spanAscii rest with
  | ([], _) => none
  | (digits, rest) => some (sign * value digits, rest)

/-- A whole text as a literal without sign: digits on at least one side of an optional point, then
an optional exponent. -/
def ofText? (s : List Char) : Option Decimal :=
  let (whole, rest) := spanAscii s
  let (fraction, rest) : List Char × List Char := match rest with
    | '.' :: r => spanAscii r
    | r => ([], r)
  if whole.isEmpty && fraction.isEmpty then none
  else
    match rest with
    | [] => some (ofParts whole fraction 0)
    | c :: r =>
      if c == 'e' || c == 'E' then
        match spanExponent r with
        | some (exponent, []) => some (ofParts whole fraction exponent)
        | _ => none
      else none

/-- A whole text as a number without sign: a literal, or a word for infinity or NaN in letters of
either case. -/
def unsigned? (s : List Char) : Option Float :=
  match ofText? s with
  | some d => some d.toFloat
  | none =>
    let word := String.ofList (s.map Char.toLower)
    if word == "inf" || word == "infinity" then some (1.0 / 0.0)
    else if word == "nan" then some (0.0 / 0.0)
    else none

/-- A whole text as a number with an optional sign. -/
def float? (s : List Char) : Option Float :=
  match s with
  | '-' :: r => (unsigned? r).map (- ·)
  | '+' :: r => unsigned? r
  | r => unsigned? r

end Milling.Decimal
