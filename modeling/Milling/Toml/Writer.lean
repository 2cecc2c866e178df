import Milling.Data.Datum
import Milling.Decimal.Layout
import Milling.Toml.Reader
/-!
Writing TOML: the values of a record first, then its tables, each with a header after an empty line.
-/

namespace Milling.Toml

/-! ### Strings -/

/-- A character that stands in no string without an escape. -/
def isControl (c : Char) : Bool :=
  !isPlain c && c != '\n'

/-- The text holds three of a quote in a row. -/
def hasRun (quote : Char) : List Char → Bool
  | a :: b :: c :: rest =>
    (a == quote && b == quote && c == quote) || hasRun quote (b :: c :: rest)
  | _ => false

/-- A control character, tab or backslash as an escape. -/
def escape (c : Char) : List Char :=
  match c with
  | '\x08' => ['\\', 'b']
  | '\t' => ['\\', 't']
  | '\x0c' => ['\\', 'f']
  | '\r' => ['\\', 'r']
  | '\\' => ['\\', '\\']
  | c =>
    if isControl c then
      '\\' :: 'u' :: '0' :: '0' ::
        [(Nat.digitChar (c.toNat / 16)).toUpper, (Nat.digitChar (c.toNat % 16)).toUpper]
    else [c]

/-- Text inside double quotes on one line. -/
def escapeLine (s : List Char) : List Char :=
  s.flatMap fun c =>
    if c == '"' then ['\\', '"'] else if c == '\n' then ['\\', 'n'] else escape c

/-- Text inside double quotes on several lines, with the count of quotes right before it: every
third quote of a run is escaped. -/
def escapeLines (quotes : Nat) : List Char → List Char
  | [] => []
  | c :: rest =>
    if c == '"' then
      if quotes = 2 then '\\' :: '"' :: escapeLines 0 rest
      else '"' :: escapeLines (quotes + 1) rest
    else escape c ++ escapeLines 0 rest

def between (delimiter : String) (s : List Char) : List Char :=
  delimiter.toList ++ s ++ delimiter.toList

/-- A string in the first form that fits: as it is in quotes of either kind, on one line or on
several, else with escapes. -/
def quoted (text : String) : List Char :=
  let s := text.toList
  let hasLineEnd := s.contains '\n'
  let hasControl := s.any isControl
  let start := if hasLineEnd then ['\n'] else []
  if !hasControl && !s.contains '\\' && !s.contains '"' && !hasLineEnd then
    between "\"" (escapeLine s)
  else if !hasControl && !s.contains '\'' && !hasLineEnd then between "'" s
  else if !hasControl && !s.contains '\\' && !hasRun '"' s then
    between "\"\"\"" (start ++ escapeLines 0 s)
  else if !hasControl && !hasRun '\'' s then between "'''" (start ++ s)
  else if hasLineEnd then between "\"\"\"" (start ++ escapeLines 0 s)
  else between "\"" (escapeLine s)

/-! ### Values -/

/-- TOML writes `.0` after integers and never an exponent. -/
def numberLayout : Decimal.Layout := ⟨none, true, false, true, "nan"⟩

def key (name : String) : List Char :=
  let s := name.toList
  if !s.isEmpty && s.all isBare then s else between "\"" (escapeLine s)

mutual

def value : Datum → List Char
  | .flag b => (if b then "true" else "false").toList
  | .whole n => if n < 0 then '-' :: Decimal.text n.natAbs else Decimal.text n.natAbs
  | .real x => (numberLayout.write x).toList
  | .text s => quoted s
  | .list _ items => '[' :: listed items
  | .record entries => '\x7b' :: ' ' :: inlined entries
  | .null | .unusable => []

/-- The items of a list up to its closing bracket. -/
def listed : List Datum → List Char
  | [] => [']']
  | [item] => value item ++ [']']
  | item :: items => value item ++ ',' :: ' ' :: listed items

/-- The entries of a table on one line up to its closing bracket. -/
def inlined : List (String × Datum) → List Char
  | [] => ['\x7d']
  | [(name, d)] => key name ++ ' ' :: '=' :: ' ' :: value d ++ [' ', '\x7d']
  | (name, d) :: entries =>
    key name ++ ' ' :: '=' :: ' ' :: value d ++ ',' :: ' ' :: inlined entries

end

/-! ### Tables -/

/-- The lines for those entries of a table that are no tables themselves. Null has no line. -/
def valueLines : List (String × Datum) → List Char
  | [] => []
  | (_, .record _) :: entries => valueLines entries
  | (_, .null) :: entries => valueLines entries
  | (name, d) :: entries => key name ++ ' ' :: '=' :: ' ' :: value d ++ '\n' :: valueLines entries

mutual

/-- The lines of the tables below a table, whose header has the given text. -/
def tableLines (path : List Char) : List (String × Datum) → List Char
  | [] => []
  | (name, d) :: entries =>
    tableAt (path ++ key name) d ++ tableLines path entries

/-- The lines of a value if it is a table: its header after an empty line, its values, its
tables. -/
def tableAt (path : List Char) : Datum → List Char
  | .record entries =>
    '\n' :: '[' :: path ++ ']' :: '\n' :: valueLines entries ++ tableLines (path ++ ['.']) entries
  | _ => []

end

def document : Datum → String
  | .record entries => String.ofList (valueLines entries ++ tableLines [] entries)
  | _ => ""

def write {α : Type} [Storable α] (a : α) : String :=
  document (encode a)

end Milling.Toml
