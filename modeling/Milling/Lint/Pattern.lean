import Milling.Block.Word
import Milling.Text.Blank
/-!
What the checker looks for in the code of a block. Letters are matched in either case.
-/

namespace Milling.Lint

def isLetter (upper : Char) (c : Char) : Bool :=
  c == upper || c == upper.toLower

/-- The words of a letter directly followed by digits, from the left, with the letter in upper
case. -/
def codeWords (upper : Char) : List Char → List String
  | [] => []
  | c :: rest =>
    let digits := if isLetter upper c then rest.takeWhile Text.isDecimalDigit else []
    if digits.isEmpty then codeWords upper rest
    else String.ofList (upper :: digits) :: codeWords upper (rest.drop digits.length)
termination_by s => s.length
decreasing_by
  · simp
  · simp only [List.length_drop, List.length_cons]
    omega

/-- The number of a feed rate at the start of a text: digits, or digits after a point that may have
digits before it. A point at the end is not part of it. -/
def feedAt? (s : List Char) : Option (List Char) :=
  let whole := s.takeWhile Text.isDecimalDigit
  let plain := if whole.isEmpty then none else some whole
  match s.dropWhile Text.isDecimalDigit with
  | '.' :: rest =>
    let fraction := rest.takeWhile Text.isDecimalDigit
    if fraction.isEmpty then plain else some (whole ++ '.' :: fraction)
  | _ => plain

/-- The first number that a recogniser finds directly after a letter. -/
def firstAfter (upper : Char) (recognise : List Char → Option (List Char)) :
    List Char → Option (List Char)
  | [] => none
  | c :: rest =>
    if isLetter upper c then
      match recognise rest with
      | some number => some number
      | none => firstAfter upper recognise rest
    else firstAfter upper recognise rest

def feed? (s : List Char) : Option Float :=
  (firstAfter 'F' feedAt? s).bind Block.numberValue

def height? (s : List Char) : Option Float :=
  (firstAfter 'Z' Block.numberAt? s).bind Block.numberValue

/-- An axis letter with a minus sign, a digit or a point after it occurs. -/
def hasMovement : List Char → Bool
  | [] => false
  | c :: rest =>
    ((isLetter 'X' c || isLetter 'Y' c || isLetter 'Z' c) &&
      match rest with
      | [] => false
      | d :: _ => d == '-' || d == '.' || Text.isDecimalDigit d) || hasMovement rest

/-- A text starts with at most two zeros and then a blank. -/
def zerosThenBlank : List Char → Bool
  | '0' :: '0' :: c :: _ => Text.isBlank c
  | '0' :: c :: _ => Text.isBlank c
  | c :: _ => Text.isBlank c
  | [] => false

/-- The letter G with at most two zeros and then a blank occurs. -/
def hasRapidWord : List Char → Bool
  | [] => false
  | c :: rest => (isLetter 'G' c && zerosThenBlank rest) || hasRapidWord rest

/-- The characters that the code of a block may consist of: the letters of words in either case,
with the two characters that fold to `k` and `s`, digits, blanks, and some signs. -/
def isAllowed (c : Char) : Bool :=
  "GMXYZIJKFSPRT".toList.any (isLetter · c) || c == Block.kelvin || c == Block.longS ||
    c == '%' || c == '.' || c == '-' || Text.isDecimalDigit c || Text.isBlank c

end Milling.Lint
