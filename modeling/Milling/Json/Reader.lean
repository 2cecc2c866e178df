import Milling.Json.Token
/-!
Reading JSON: from tokens to data trees.

The grammar is strict: no comma before a closing bracket, and nothing after the value.
-/

namespace Milling.Json

mutual

/-- The value at the start of a list of tokens, and the tokens after it. Fails if it takes more
than `budget` steps. -/
def spanValue : Nat → List Token → Option (Datum × List Token)
  | 0, _ => none
  | _ + 1, .scalar value :: rest => some (value, rest)
  | _ + 1, .text (some value) :: rest => some (.text value, rest)
  | _ + 1, .text none :: rest => some (.unusable, rest)
  | _ + 1, .openList :: .closeList :: rest => some (.list true [], rest)
  | budget + 1, .openList :: rest =>
    (spanItems budget rest).map fun (items, rest) => (.list true items, rest)
  | _ + 1, .openRecord :: .closeRecord :: rest => some (.record [], rest)
  | budget + 1, .openRecord :: rest =>
    (spanEntries budget rest).map fun (entries, rest) =>
      match entries with
      | some entries => (.record entries, rest)
      | none => (.unusable, rest)
  | _ + 1, _ => none

/-- One item or more up to the end of a list. -/
def spanItems : Nat → List Token → Option (List Datum × List Token)
  | 0, _ => none
  | budget + 1, tokens =>
    match spanValue budget tokens with
    | some (item, .closeList :: rest) => some ([item], rest)
    | some (item, .comma :: rest) =>
      (spanItems budget rest).map fun (items, rest) => (item :: items, rest)
    | _ => none

/-- One entry or more up to the end of a record. There are no entries to tell of if a key is no
Unicode text. -/
def spanEntries : Nat → List Token → Option (Option (List (String × Datum)) × List Token)
  | 0, _ => none
  | budget + 1, .text key :: .colon :: tokens =>
    match spanValue budget tokens with
    | some (value, .closeRecord :: rest) => some (key.map fun key => [(key, value)], rest)
    | some (value, .comma :: rest) =>
      (spanEntries budget rest).map fun (entries, rest) =>
        (key.bind fun key => entries.map ((key, value) :: ·), rest)
    | _ => none
  | _ + 1, _ => none

end

/-- The value that a list of tokens is; `none` if it is none or if more follows. -/
def ofTokens? (tokens : List Token) : Option Datum :=
  match spanValue (2 * tokens.length + 1) tokens with
  | some (value, []) => some value
  | _ => none

def parse? (s : String) : Option Datum :=
  (tokens? s.toList).bind ofTokens?

def read? {α : Type} [Storable α] (s : String) : Option α :=
  (parse? s).bind decode

end Milling.Json
