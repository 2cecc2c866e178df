import Milling.Data.Datum
import Milling.Decimal.Literal
import Milling.Text.Hex
/-!
Numbers and date-times of TOML.

Digits may be grouped by single underscores. Integers are those of 64 bits with sign.
-/

namespace Milling.Toml

/-- Digits at the start of a text, without the single underscores that stand between two of them,
and what follows. An underscore at the start counts only if `started`. -/
def spanGrouped (isDigit : Char → Bool) (started : Bool) : List Char → List Char × List Char
  | [] => ([], [])
  | '_' :: c :: rest =>
    if started && isDigit c then
      let (digits, rest) := spanGrouped isDigit true rest
      (c :: digits, rest)
    else ([], '_' :: c :: rest)
  | c :: rest =>
    if isDigit c then
      let (digits, rest) := spanGrouped isDigit true rest
      (c :: digits, rest)
    else ([], c :: rest)

/-- Decimal digits; a zero at the start stands alone. -/
def spanWhole : List Char → List Char × List Char
  | '0' :: rest => (['0'], rest)
  | s => spanGrouped Char.isDigit false s

def spanDigits (s : List Char) : Option (List Char × List Char) :=
  match spanGrouped Char.isDigit false s with
  | ([], _) => none
  | found => some found

/-- An integer as data, if it is one of 64 bits with sign. -/
def whole? (value : Int) : Option Datum :=
  if Int64.minValue.toInt ≤ value ∧ value ≤ Int64.maxValue.toInt then some (.whole value) else none

/-- The base that a letter after a zero stands for. -/
def base? : Char → Option Nat
  | 'x' => some 16
  | 'o' => some 8
  | 'b' => some 2
  | _ => none

/-- An integer in a base other than ten; the text starts after the letter for the base. -/
def spanBased (base : Nat) (s : List Char) : Option (Datum × List Char) :=
  let isDigit (c : Char) : Bool := (Text.hexDigit? c).any (· < base)
  match spanGrouped isDigit false s with
  | ([], _) => none
  | (digits, rest) =>
    let value := digits.foldl (fun n c => base * n + (Text.hexDigit? c).getD 0) 0
    (whole? value).map (·, rest)

/-- The digits after a point; none if there is no point. Fails if no digit follows the point. -/
def spanFraction : List Char → Option (List Char × Bool × List Char)
  | '.' :: rest => (spanDigits rest).map fun (digits, rest) => (digits, true, rest)
  | rest => some ([], false, rest)

/-- An exponent; 0 if there is none. Fails if no digit follows the mark. -/
def spanExponent : List Char → Option (Int × Bool × List Char)
  | [] => some (0, false, [])
  | c :: rest =>
    if c == 'e' || c == 'E' then
      let negative := rest.head? == some '-'
      let digits := if negative || rest.head? == some '+' then rest.tail else rest
      (spanDigits digits).map fun (digits, rest) =>
        let power : Int := Decimal.value digits
        (if negative then -power else power, true, rest)
    else some (0, false, c :: rest)

/-- A number in base ten without its sign. -/
def spanDecimal (negative : Bool) (s : List Char) : Option (Datum × List Char) :=
  match spanWhole s with
  | ([], _) => none
  | (digits, rest) => do
    let (fraction, hasFraction, rest) ← spanFraction rest
    let (exponent, hasExponent, rest) ← spanExponent rest
    if hasFraction || hasExponent then
      let magnitude := (Decimal.ofParts digits fraction exponent).toFloat
      let x := if negative then -magnitude else magnitude
      if x == 1.0 / 0.0 then none else some (.real x, rest)
    else
      let n : Int := Decimal.value digits
      (whole? (if negative then -n else n)).map (·, rest)

/-- The number at the start of a text, and what follows it. A number too large is refused, unless
it is negative and has a point or an exponent: then it is minus infinity. -/
def spanNumber (s : List Char) : Option (Datum × List Char) :=
  let negative := s.head? == some '-'
  let signed := negative || s.head? == some '+'
  let apply (x : Float) : Datum := .real (if negative then -x else x)
  match if signed then s.tail else s with
  | 'i' :: 'n' :: 'f' :: rest => some (apply (1.0 / 0.0), rest)
  | 'n' :: 'a' :: 'n' :: rest => some (apply (0.0 / 0.0), rest)
  | '0' :: c :: rest =>
    match if signed then none else base? c with
    | some base => spanBased base rest
    | none => spanDecimal negative ('0' :: c :: rest)
  | rest => spanDecimal negative rest

/-! ### Date-times -/

/-- A number of exactly `count` digits within bounds, and what follows it. -/
def spanField (count least greatest : Nat) (s : List Char) : Option (Nat × List Char) :=
  let digits := s.take count
  let value := Decimal.value digits
  if digits.length = count && digits.all Char.isDigit && least ≤ value && value ≤ greatest then
    some (value, s.drop count)
  else none

/-- What follows a character. -/
def after? (c : Char) : List Char → Option (List Char)
  | [] => none
  | d :: rest => if d == c then some rest else none

/-- The count of days of a month. -/
def daysOf (year month : Nat) : Nat :=
  if month = 2 then
    if year % 4 = 0 ∧ (year % 100 ≠ 0 ∨ year % 400 = 0) then 29 else 28
  else if month = 4 ∨ month = 6 ∨ month = 9 ∨ month = 11 then 30
  else 31

def afterDate? (s : List Char) : Option (List Char) := do
  let (year, rest) ← spanField 4 0 9999 s
  let rest ← after? '-' rest
  let (month, rest) ← spanField 2 1 12 rest
  let rest ← after? '-' rest
  let (_, rest) ← spanField 2 1 (daysOf year month) rest
  some rest

/-- What follows a time of the day. The second may be a leap second. -/
def afterTime? (s : List Char) : Option (List Char) := do
  let (_, rest) ← spanField 2 0 23 s
  let rest ← after? ':' rest
  let (_, rest) ← spanField 2 0 59 rest
  let rest ← after? ':' rest
  let (_, rest) ← spanField 2 0 60 rest
  match rest with
  | '.' :: c :: fraction => some (if c.isDigit then fraction.dropWhile Char.isDigit else rest)
  | _ => some rest

/-- What follows the offset from universal time, if there is one. -/
def afterOffset (s : List Char) : List Char :=
  match s with
  | [] => []
  | c :: rest =>
    if c == 'Z' || c == 'z' then rest
    else if c == '+' || c == '-' then
      let found := do
        let (_, rest) ← spanField 2 0 23 rest
        let rest ← after? ':' rest
        let (_, rest) ← spanField 2 0 59 rest
        some rest
      found.getD s
    else s

/-- What follows a date-time: a date, a time, or both with at most an offset. -/
def afterDateTime? (s : List Char) : Option (List Char) :=
  match afterDate? s with
  | none => afterTime? s
  | some [] => some []
  | some (c :: rest) =>
    if c == 'T' || c == 't' || c == ' ' then
      match afterTime? rest with
      | some rest => some (afterOffset rest)
      | none => some (c :: rest)
    else some (c :: rest)

/-- The date-time at the start of a text, and what follows it. As data it is a record with its text
under a key that no structure has. -/
def spanDateTime (s : List Char) : Option (Datum × List Char) :=
  (afterDateTime? s).map fun rest =>
    (.record [("$date-time", .text (String.ofList (s.take (s.length - rest.length))))], rest)

end Milling.Toml
