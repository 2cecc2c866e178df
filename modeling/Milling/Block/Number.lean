import Milling.Decimal.Literal
import Milling.Text.Digit
/-!
Numbers inside a block.

The number of a word is an optional minus sign, then digits with at most one point: at least one
digit before the point, or none before and at least one after. It is recognised with the digits of
every script and read only if all its digits are ASCII.
-/

namespace Milling.Block

/-- The number without sign at the start of a text: digits with an optional point after at least
one of them, or a point and at least one digit. -/
def unsignedAt? (s : List Char) : Option (List Char) :=
  let whole := s.takeWhile Text.isDecimalDigit
  match s.dropWhile Text.isDecimalDigit with
  | '.' :: rest =>
    let fraction := rest.takeWhile Text.isDecimalDigit
    if whole.isEmpty && fraction.isEmpty then none else some (whole ++ '.' :: fraction)
  | _ => if whole.isEmpty then none else some whole

def numberAt? : List Char → Option (List Char)
  | '-' :: rest => (unsignedAt? rest).map ('-' :: ·)
  | s => unsignedAt? s

/-- The value of a number, `none` if it holds a digit outside ASCII. -/
def numberValue (s : List Char) : Option Float :=
  Decimal.float? s

def greatestCode : Nat := UInt32.size - 1

/-- The value of the digits of a G code, `none` if they are not ASCII or the value is too large. -/
def codeValue (s : List Char) : Option Nat :=
  if s.all Char.isDigit && Decimal.value s ≤ greatestCode then some (Decimal.value s) else none

end Milling.Block
