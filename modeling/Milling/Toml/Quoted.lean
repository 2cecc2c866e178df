import Milling.Text.Hex
/-!
Strings of TOML: in double or single quotes, on one line or on several.

Double quotes know escapes, single quotes do not. In strings of several lines a line end right after
the opening quotes does not count, and a line end is one newline however it is written.
-/

namespace Milling.Toml

def isBlank (c : Char) : Bool :=
  c == ' ' || c == '\t'

/-- A character that may stand in strings and comments: a tab, or no control character. -/
def isPlain (c : Char) : Bool :=
  c == '\t' || (0x20 ≤ c.toNat && c != '\x7f')

/-- What follows the line end at the start of a text. -/
def afterLineEnd? : List Char → Option (List Char)
  | '\n' :: rest => some rest
  | '\r' :: '\n' :: rest => some rest
  | _ => none

/-- The character that a letter after a backslash stands for. -/
def escaped? : Char → Option Char
  | 'b' => some '\x08'
  | 't' => some '\t'
  | 'n' => some '\n'
  | 'f' => some '\x0c'
  | 'r' => some '\r'
  | '"' => some '"'
  | '\\' => some '\\'
  | _ => none

/-- The character that an escape stands for, and what follows it; the text starts after the
backslash. -/
def spanEscape : List Char → Option (Char × List Char)
  | [] => none
  | c :: rest =>
    let length := if c == 'u' then 4 else if c == 'U' then 8 else 0
    if length = 0 then (escaped? c).map (·, rest)
    else if rest.length < length then none
    else (Text.hexChar? (rest.take length)).map (·, rest.drop length)

/-- The text of a string in double quotes on one line, and what follows its closing quote. `seen`
holds the characters before, the last first. Fails if it takes more than `budget` steps. -/
def spanBasic (seen : List Char) : Nat → List Char → Option (String × List Char)
  | 0, _ => none
  | _ + 1, '"' :: rest => some (String.ofList seen.reverse, rest)
  | budget + 1, '\\' :: rest =>
    match spanEscape rest with
    | some (c, rest) => spanBasic (c :: seen) budget rest
    | none => none
  | budget + 1, c :: rest => if isPlain c then spanBasic (c :: seen) budget rest else none
  | _ + 1, [] => none

/-- The text of a string in single quotes on one line, and what follows its closing quote. -/
def spanLiteral (s : List Char) : Option (String × List Char) :=
  let inside := s.takeWhile fun c => isPlain c && c != '\''
  match s.drop inside.length with
  | '\'' :: rest => some (String.ofList inside, rest)
  | _ => none

/-- The quotes at the end of a string of several lines: up to two more than the three that close it
belong to its text. The text starts after the first three. -/
def closeLines (quote : Char) (seen rest : List Char) : String × List Char :=
  let extra := ((rest.take 2).takeWhile (· == quote)).length
  (String.ofList (List.replicate extra quote ++ seen).reverse, rest.drop extra)

/-- What follows a backslash at the end of a line: all blanks and line ends are skipped. Fails if
the line does not end there. -/
def afterContinuation? (s : List Char) : Option (List Char) :=
  (afterLineEnd? (s.dropWhile isBlank)).map skip
where
  /-- The text without the blanks and line ends at its start. -/
  skip : List Char → List Char
    | [] => []
    | '\r' :: '\n' :: rest => skip rest
    | c :: rest => if isBlank c || c == '\n' then skip rest else c :: rest

/-- The text of a string of several lines in double quotes, and what follows its closing quotes. -/
def spanBasicLines (seen : List Char) : Nat → List Char → Option (String × List Char)
  | 0, _ => none
  | _ + 1, '"' :: '"' :: '"' :: rest => some (closeLines '"' seen rest)
  | budget + 1, '\\' :: rest =>
    match afterContinuation? rest with
    | some rest => spanBasicLines seen budget rest
    | none =>
      match spanEscape rest with
      | some (c, rest) => spanBasicLines (c :: seen) budget rest
      | none => none
  | budget + 1, '\r' :: '\n' :: rest => spanBasicLines ('\n' :: seen) budget rest
  | budget + 1, c :: rest =>
    if isPlain c || c == '\n' then spanBasicLines (c :: seen) budget rest else none
  | _ + 1, [] => none

/-- The text of a string of several lines in single quotes, and what follows its closing quotes. -/
def spanLiteralLines (seen : List Char) : List Char → Option (String × List Char)
  | [] => none
  | '\'' :: '\'' :: '\'' :: rest => some (closeLines '\'' seen rest)
  | '\r' :: '\n' :: rest => spanLiteralLines ('\n' :: seen) rest
  | c :: rest => if isPlain c || c == '\n' then spanLiteralLines (c :: seen) rest else none

/-- The text without a line end at its start. -/
def trimLineEnd (s : List Char) : List Char :=
  (afterLineEnd? s).getD s

/-- The string at the start of a text, in any of the four forms, and what follows it. -/
def spanString : List Char → Option (String × List Char)
  | '"' :: '"' :: '"' :: rest => spanBasicLines [] (rest.length + 1) (trimLineEnd rest)
  | '\'' :: '\'' :: '\'' :: rest => spanLiteralLines [] (trimLineEnd rest)
  | '"' :: rest => spanBasic [] (rest.length + 1) rest
  | '\'' :: rest => spanLiteral rest
  | _ => none

end Milling.Toml
