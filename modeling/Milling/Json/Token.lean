import Milling.Decimal.Layout
import Milling.Json.Number
import Milling.Text.Hex
/-!
Tokens of JSON: reading them from a text and writing them.

Numbers are integers of at most 64 bits, or doubles. A string with a surrogate that has no partner
is read, as it does no harm where its value is ignored.
-/

namespace Milling.Json

inductive Token
  | openRecord
  | closeRecord
  | openList
  | closeList
  | colon
  | comma
  /-- A string, `none` if it is no Unicode text. -/
  | text (value : Option String)
  /-- A number, a truth value or null. -/
  | scalar (value : Datum)
deriving Inhabited

def isBlank (c : Char) : Bool :=
  c == ' ' || c == '\t' || c == '\n' || c == '\r'

/-! ### Strings -/

/-- The character that a letter after a backslash stands for. -/
def escaped? : Char → Option Char
  | '"' => some '"'
  | '\\' => some '\\'
  | '/' => some '/'
  | 'b' => some '\x08'
  | 'f' => some '\x0c'
  | 'n' => some '\n'
  | 'r' => some '\r'
  | 't' => some '\t'
  | _ => none

/-- The code points of a string up to its closing quote, and what follows. `seen` holds those
before, the last first. -/
def spanCodes (seen : List Nat) : List Char → Option (List Nat × List Char)
  | [] => none
  | '"' :: rest => some (seen.reverse, rest)
  | '\\' :: 'u' :: a :: b :: c :: d :: rest =>
    match Text.hexValue? [a, b, c, d] with
    | some n => spanCodes (n :: seen) rest
    | none => none
  | '\\' :: c :: rest =>
    match escaped? c with
    | some c => spanCodes (c.toNat :: seen) rest
    | none => none
  | c :: rest => if c.toNat < 0x20 || c == '\\' then none else spanCodes (c.toNat :: seen) rest

/-- The first of a pair of surrogates. -/
def isHigh (n : Nat) : Bool := 0xD800 ≤ n && n ≤ 0xDBFF

/-- The second of a pair of surrogates. -/
def isLow (n : Nat) : Bool := 0xDC00 ≤ n && n ≤ 0xDFFF

/-- The characters of code points, with surrogates joined in pairs; `none` if one has no partner.
`seen` holds the characters before, the last first. -/
def joined (seen : List Char) : List Nat → Option (List Char)
  | [] => some seen.reverse
  | [n] => if isHigh n || isLow n then none else some (Char.ofNat n :: seen).reverse
  | n :: m :: rest =>
    if isHigh n then
      if isLow m then
        joined (Char.ofNat (0x10000 + (n - 0xD800) * 0x400 + (m - 0xDC00)) :: seen) rest
      else none
    else if isLow n then none
    else joined (Char.ofNat n :: seen) (m :: rest)

/-! ### Tokens -/

/-- The token at the start of a text that starts with no blank, and what follows it. -/
def spanToken : List Char → Option (Token × List Char)
  | '\x7b' :: rest => some (.openRecord, rest)
  | '\x7d' :: rest => some (.closeRecord, rest)
  | '[' :: rest => some (.openList, rest)
  | ']' :: rest => some (.closeList, rest)
  | ':' :: rest => some (.colon, rest)
  | ',' :: rest => some (.comma, rest)
  | '"' :: rest =>
    (spanCodes [] rest).map fun (codes, rest) =>
      (.text ((joined [] codes).map String.ofList), rest)
  | 'n' :: 'u' :: 'l' :: 'l' :: rest => some (.scalar .null, rest)
  | 't' :: 'r' :: 'u' :: 'e' :: rest => some (.scalar (.flag true), rest)
  | 'f' :: 'a' :: 'l' :: 's' :: 'e' :: rest => some (.scalar (.flag false), rest)
  | s => (spanNumber s).map fun (number, rest) => (.scalar number, rest)

/-- The tokens of a text, of at most `budget` characters, after those in `seen`, the last first. -/
def spanTokens (seen : List Token) : Nat → List Char → Option (List Token)
  | budget, s =>
    match s.dropWhile isBlank with
    | [] => some seen.reverse
    | c :: rest =>
      match budget with
      | 0 => none
      | budget + 1 =>
        match spanToken (c :: rest) with
        | some (token, rest) => spanTokens (token :: seen) budget rest
        | none => none

/-- The tokens of a text; `none` if it holds anything else. -/
def tokens? (s : List Char) : Option (List Token) :=
  spanTokens [] s.length s

/-! ### Writing -/

/-- JSON writes `.0` after integers and turns to an exponent below `1e-5` and from `1e16` on. -/
def numberLayout : Decimal.Layout := ⟨some (-5, 15), true, true, false, "null"⟩

/-- A character inside a string. Only quotes, backslashes and control characters are escaped. -/
def escape (c : Char) : List Char :=
  match c with
  | '"' => ['\\', '"']
  | '\\' => ['\\', '\\']
  | '\x08' => ['\\', 'b']
  | '\x0c' => ['\\', 'f']
  | '\n' => ['\\', 'n']
  | '\r' => ['\\', 'r']
  | '\t' => ['\\', 't']
  | c =>
    if c.toNat < 0x20 then
      ['\\', 'u', '0', '0', Nat.digitChar (c.toNat / 16), Nat.digitChar (c.toNat % 16)]
    else [c]

def quoted (s : String) : List Char :=
  '"' :: (s.toList.flatMap escape ++ ['"'])

/-- A number, a truth value or null as text. A number that is not finite is null. -/
def scalar : Datum → List Char
  | .flag value => (if value then "true" else "false").toList
  | .whole value =>
    if value < 0 then '-' :: Decimal.text value.natAbs else Decimal.text value.natAbs
  | .real value => if value.isFinite then (numberLayout.write value).toList else "null".toList
  | _ => "null".toList

def Token.chars : Token → List Char
  | openRecord => ['\x7b']
  | closeRecord => ['\x7d']
  | openList => ['[']
  | closeList => [']']
  | colon => [':']
  | comma => [',']
  | text value => quoted (value.getD "")
  | scalar value => Json.scalar value

end Milling.Json
