import Milling.Json.Token
/-!
Writing JSON: on one line, or with one item a line.
-/

namespace Milling.Json

mutual

def tokens : Datum → List Token
  | .list _ [] => [.openList, .closeList]
  | .list _ (item :: items) => .openList :: (tokens item ++ itemTokens items)
  | .record [] => [.openRecord, .closeRecord]
  | .record ((key, value) :: entries) =>
    .openRecord :: .text (some key) :: .colon :: (tokens value ++ entryTokens entries)
  | .text value => [.text (some value)]
  | value => [.scalar value]

/-- The tokens of a list after its first item. -/
def itemTokens : List Datum → List Token
  | [] => [.closeList]
  | item :: items => .comma :: (tokens item ++ itemTokens items)

/-- The tokens of a record after its first entry. -/
def entryTokens : List (String × Datum) → List Token
  | [] => [.closeRecord]
  | (key, value) :: entries =>
    .comma :: .text (some key) :: .colon :: (tokens value ++ entryTokens entries)

end

def compact (d : Datum) : String :=
  String.ofList ((tokens d).flatMap Token.chars)

def indent (depth : Nat) : List Char :=
  '\n' :: List.replicate (2 * depth) ' '

mutual

/-- A value with one item or entry a line, at a depth. -/
def lines (depth : Nat) : Datum → List Char
  | .list _ [] => ['[', ']']
  | .list _ (item :: items) =>
    '[' :: (indent (depth + 1) ++ lines (depth + 1) item ++ itemLines depth items)
  | .record [] => ['\x7b', '\x7d']
  | .record ((key, value) :: entries) =>
    '\x7b' :: (indent (depth + 1) ++ quoted key ++ ':' :: ' ' :: lines (depth + 1) value ++
      entryLines depth entries)
  | .text value => quoted value
  | value => scalar value

/-- The lines of a list after its first item. -/
def itemLines (depth : Nat) : List Datum → List Char
  | [] => indent depth ++ [']']
  | item :: items =>
    ',' :: (indent (depth + 1) ++ lines (depth + 1) item ++ itemLines depth items)

/-- The lines of a record after its first entry. -/
def entryLines (depth : Nat) : List (String × Datum) → List Char
  | [] => indent depth ++ ['\x7d']
  | (key, value) :: entries =>
    ',' :: (indent (depth + 1) ++ quoted key ++ ':' :: ' ' :: lines (depth + 1) value ++
      entryLines depth entries)

end

def pretty (d : Datum) : String :=
  String.ofList (lines 0 d)

/-- Writes a value of a type on one line. -/
def write {α : Type} [Storable α] (a : α) : String :=
  compact (encode a)

end Milling.Json
