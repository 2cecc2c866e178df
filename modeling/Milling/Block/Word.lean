import Milling.Block.Number
/-!
Words of a block: an address letter and a number.

Blocks are scanned from the left. At each position a letter with a number directly after it is a
word and is passed over as a whole; any other character is skipped. The first readable number of
each letter counts. Letters are taken in either case, and the Kelvin sign, which folds to `k`,
makes a word that fills no field.
-/

namespace Milling.Block

/-- The letters that carry a coordinate, an offset or a feed rate. -/
inductive Letter
  | x | y | z | f | i | j | k
deriving DecidableEq, Inhabited

def Letter.ofChar? (c : Char) : Option Letter :=
  if c == 'X' || c == 'x' then some .x
  else if c == 'Y' || c == 'y' then some .y
  else if c == 'Z' || c == 'z' then some .z
  else if c == 'F' || c == 'f' then some .f
  else if c == 'I' || c == 'i' then some .i
  else if c == 'J' || c == 'j' then some .j
  else if c == 'K' || c == 'k' then some .k
  else none

/-- The Kelvin sign, the one character outside ASCII that folds to an address letter. -/
def kelvin : Char := '\u212A'

/-- The long s, the one character outside ASCII that folds to `s`. -/
def longS : Char := '\u017F'

/-- A number after this character is part of its word. -/
def isAddress (c : Char) : Bool :=
  (Letter.ofChar? c).isSome || c == kelvin

structure Word where
  address : Char
  number : List Char
deriving DecidableEq, Inhabited

/-- The number fills the field of this letter. -/
def Word.fills (w : Word) (l : Letter) : Bool :=
  Letter.ofChar? w.address == some l

def words : List Char → List Word
  | [] => []
  | c :: rest =>
    if isAddress c then
      match numberAt? rest with
      | some number => ⟨c, number⟩ :: words (rest.drop number.length)
      | none => words rest
    else words rest
termination_by s => s.length
decreasing_by
  · simp only [List.length_drop, List.length_cons]
    omega
  · simp
  · simp

/-- The digits after the first G that has a digit after it. -/
def codeDigits? : List Char → Option (List Char)
  | [] => none
  | c :: rest =>
    let digits := if c == 'G' || c == 'g' then rest.takeWhile Text.isDecimalDigit else []
    if digits.isEmpty then codeDigits? rest else some digits

/-- The number of the first G word, `none` if there is none or it cannot be read. -/
def codeNumber? (s : List Char) : Option Nat :=
  (codeDigits? s).bind codeValue

def field (ws : List Word) (l : Letter) : Option Float :=
  (ws.filter (·.fills l)).findSome? fun w => numberValue w.number

structure Fields where
  g : Option Nat
  x : Option Float
  y : Option Float
  z : Option Float
  f : Option Float
  i : Option Float
  j : Option Float
  k : Option Float
deriving Inhabited

def Fields.hasAxis (w : Fields) : Bool :=
  w.x.isSome || w.y.isSome || w.z.isSome

/-- An offset of an arc's centre is given. -/
def Fields.hasOffset (w : Fields) : Bool :=
  w.i.isSome || w.j.isSome

def readFields (s : List Char) : Fields :=
  let ws := words s
  { g := codeNumber? s
    x := field ws .x
    y := field ws .y
    z := field ws .z
    f := field ws .f
    i := field ws .i
    j := field ws .j
    k := field ws .k }

end Milling.Block
