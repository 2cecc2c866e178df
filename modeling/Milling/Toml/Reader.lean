import Milling.Toml.Node
import Milling.Toml.Number
import Milling.Toml.Quoted
/-!
Reading TOML: keys, values, and the lines of a document.
-/

namespace Milling.Toml

/-! ### Between keys and values -/

def skipBlanks (s : List Char) : List Char :=
  s.dropWhile isBlank

/-- What follows the end of a line: blanks, a comment and a line end or the end of the text. Fails
if anything else stands before it. -/
def afterLine? (s : List Char) : Option (List Char) :=
  let rest := match skipBlanks s with
    | '#' :: comment => comment.dropWhile isPlain
    | rest => rest
  match rest with
  | [] => some []
  | rest => afterLineEnd? rest

/-- The text without blanks, line ends and comments at its start. -/
def skipLines (inComment : Bool) : List Char → List Char
  | [] => []
  | '\n' :: rest => skipLines false rest
  | '\r' :: '\n' :: rest => skipLines false rest
  | c :: rest =>
    if inComment then if isPlain c then skipLines true rest else c :: rest
    else if c == '#' then skipLines true rest
    else if isBlank c then skipLines false rest
    else c :: rest

/-! ### Keys -/

def isBare (c : Char) : Bool :=
  c.isAlphanum || c == '-' || c == '_'

/-- One part of a key: a string on one line, or bare characters. -/
def spanPart (s : List Char) : Option (String × List Char) :=
  match s with
  | '"' :: rest => spanBasic [] (rest.length + 1) rest
  | '\'' :: rest => spanLiteral rest
  | _ =>
    match s.takeWhile isBare with
    | [] => none
    | bare => some (String.ofList bare, s.dropWhile isBare)

/-- A key of at most `limit` parts with dots between them, and what follows it. The last part comes
apart from those before it. -/
def spanKey : Nat → List Char → Option ((List String × String) × List Char)
  | 0, _ => none
  | limit + 1, s => do
    let (part, rest) ← spanPart (skipBlanks s)
    match skipBlanks rest with
    | '.' :: rest =>
      let ((path, key), rest) ← spanKey limit rest
      some ((part :: path, key), rest)
    | rest => some (([], part), rest)

/-- How many parts a key may have, and how deep values may nest. -/
def depthLimit : Nat := 79

/-! ### Values -/

mutual

/-- The value at the start of a text, with at most `depth` lists and tables around each other, and
what follows it. Fails if it takes more than `budget` steps. -/
def spanValue (depth : Nat) : Nat → List Char → Option (Datum × List Char)
  | 0, _ => none
  | budget + 1, '[' :: rest =>
    if depth = 0 then none
    else (spanItems (depth - 1) budget rest).map fun (items, rest) => (.list false items, rest)
  | budget + 1, '\x7b' :: rest =>
    if depth = 0 then none
    else
      match skipBlanks rest with
      | '\x7d' :: rest => some (.record [], rest)
      | rest =>
        (spanPairs (depth - 1) [] budget rest).map fun (entries, rest) =>
          (.record (Entries.data entries), rest)
  | _ + 1, 't' :: 'r' :: 'u' :: 'e' :: rest => some (.flag true, rest)
  | _ + 1, 'f' :: 'a' :: 'l' :: 's' :: 'e' :: rest => some (.flag false, rest)
  | _ + 1, s =>
    if s.head? == some '"' || s.head? == some '\'' then
      (spanString s).map fun (value, rest) => (.text value, rest)
    else (spanDateTime s).or (spanNumber s)

/-- Items up to the end of a list; a comma may stand after the last one. -/
def spanItems (depth : Nat) : Nat → List Char → Option (List Datum × List Char)
  | 0, _ => none
  | budget + 1, s =>
    match skipLines false s with
    | ']' :: rest => some ([], rest)
    | s =>
      match spanValue depth budget s with
      | none => none
      | some (item, rest) =>
        match skipLines false rest with
        | ',' :: rest =>
          (spanItems depth budget rest).map fun (items, rest) => (item :: items, rest)
        | ']' :: rest => some ([item], rest)
        | _ => none

/-- One entry or more up to the end of a table on one line, with the entries before. No comma may
stand after the last one. -/
def spanPairs (depth : Nat) (entries : Entries) : Nat → List Char → Option (Entries × List Char)
  | 0, _ => none
  | budget + 1, s =>
    match spanKey depthLimit s with
    | some ((path, key), '=' :: rest) =>
      match spanValue depth budget (skipBlanks rest) with
      | none => none
      | some (value, rest) =>
        match entries.define value key path with
        | none => none
        | some entries =>
          match skipBlanks rest with
          | ',' :: rest => spanPairs depth entries budget rest
          | '\x7d' :: rest => some (entries, rest)
          | _ => none
    | _ => none

end

/-! ### Documents -/

/-- A document as far as it is read, and the header of its section. -/
structure Document where
  root : Entries
  path : List String
deriving Inhabited

namespace Document

/-- Starts a section with a header that is closed by the given brackets. -/
def open? (doc : Document) (start : String → List String → Entries → Option Entries)
    (brackets : List Char) (s : List Char) : Option (Document × List Char) := do
  let ((path, key), rest) ← spanKey depthLimit s
  if rest.take brackets.length == brackets then
    let root ← start key path doc.root
    some (⟨root, path ++ [key]⟩, rest.drop brackets.length)
  else none

/-- Reads a header or an entry, and returns what follows it on its line. -/
def line? (doc : Document) (s : List Char) : Option (Document × List Char) :=
  match s with
  | '[' :: '[' :: rest => doc.open? Entries.openNext [']', ']'] rest
  | '[' :: rest => doc.open? Entries.openTable [']'] rest
  | s =>
    match spanKey depthLimit s with
    | some ((path, key), '=' :: rest) => do
      let (value, rest) ← spanValue depthLimit (2 * rest.length + 2) (skipBlanks rest)
      let root ← Entries.within (Entries.define value key path) doc.path doc.root
      some ({ doc with root }, rest)
    | _ => none

/-- Reads the lines of a text, at most `budget` of them. -/
def lines? (doc : Document) : Nat → List Char → Option Document
  | 0, _ => none
  | budget + 1, s =>
    match afterLine? s with
    | some [] => some doc
    | some rest => lines? doc budget rest
    | none =>
      match doc.line? (skipBlanks s) with
      | none => none
      | some (doc, rest) =>
        match afterLine? rest with
        | some rest => lines? doc budget rest
        | none => none

end Document

/-- Reads a whole text. A byte order mark may stand at its start. -/
def parse? (s : String) : Option Datum :=
  let s := match s.toList with
    | '\ufeff' :: rest => rest
    | s => s
  (Document.lines? ⟨[], []⟩ (s.length + 1) s).map fun doc => .record (Entries.data doc.root)

def read? {α : Type} [Storable α] (s : String) : Option α :=
  (parse? s).bind decode

end Milling.Toml
