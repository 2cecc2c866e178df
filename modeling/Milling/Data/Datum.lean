/-!
Data trees: what a JSON or TOML text says, before it is known what it is meant to be.

A structure is a record with the names of its fields, or a list of its fields in the order in which
they are declared. `Storable` is the class of types with such a form.
-/

namespace Milling

/-- A data tree. -/
inductive Datum where
  | null
  | flag (value : Bool)
  /-- An integer literal within the range of 64-bit words, signed or not. -/
  | whole (value : Int)
  /-- Any other number. -/
  | real (value : Float)
  | text (value : String)
  /-- A list. A closed list holds as many items as a structure has fields; of an open one the items
  past the last field are ignored. -/
  | list (closed : Bool) (items : List Datum)
  | record (entries : List (String × Datum))
  /-- A number out of range or a text that is no Unicode: no type takes it, but it does no harm
  where it is ignored. -/
  | unusable
deriving Inhabited

namespace Datum

def flag? : Datum → Option Bool
  | flag value => some value
  | _ => none

/-- A number; integers are numbers too. -/
def float? : Datum → Option Float
  | whole value => some (Float.ofInt value)
  | real value => some value
  | _ => none

/-- An integer from 0 to below a bound. -/
def nat? (bound : Nat) : Datum → Option Nat
  | whole value => if 0 ≤ value ∧ value < bound then some value.toNat else none
  | _ => none

def text? : Datum → Option String
  | text value => some value
  | _ => none

def items? : Datum → Option (List Datum)
  | list _ items => some items
  | _ => none

/-- One of several named values: its name, or a record with its name as the only key and nothing
under it. -/
def choice? {α : Type} (choices : List α) (name : α → String) : Datum → Option α
  | text s => choices.find? (name · == s)
  | record [(key, null)] => choices.find? (name · == key)
  | _ => none

/-- The fields of a structure in the order of their names, each with its value if it has one. In a
record, other keys are ignored and a key of the structure must not occur twice. A list may end
early only if `defaulted` is set. -/
def fields? (names : List String) (defaulted : Bool) : Datum → Option (List (Option Datum))
  | record entries =>
    if names.all fun name => (entries.filter (·.1 == name)).length ≤ 1 then
      some (names.map fun name => entries.lookup name)
    else none
  | list closed items =>
    if (items.length < names.length && !defaulted) || (names.length < items.length && closed) then
      none
    else some (names.zipIdx.map fun named => items[named.2]?)
  | _ => none

end Datum

/-- A type whose values have a form as data trees. -/
class Storable (α : Type) where
  encode : α → Datum
  decode : Datum → Option α

export Storable (encode decode)

namespace Datum

variable {α : Type} [Storable α]

def required (field : Option Datum) : Option α :=
  field.bind decode

def withDefault (default : α) : Option Datum → Option α
  | none => some default
  | some d => decode d

/-- A field that may be missing. -/
def orNull : Option Datum → Option (Option α)
  | none => some none
  | some null => some none
  | some d => (decode d).map some

end Datum

/-- The count of values of a word of the machine. -/
def wordBound : Nat := UInt64.size

instance : Storable Bool where
  encode := .flag
  decode := Datum.flag?

instance : Storable Float where
  encode := .real
  decode := Datum.float?

instance : Storable Nat where
  encode n := .whole n
  decode := Datum.nat? wordBound

instance : Storable String where
  encode := .text
  decode := Datum.text?

instance : Storable UInt8 where
  encode n := .whole n.toNat
  decode d := (d.nat? 256).map UInt8.ofNat

instance {α : Type} [Storable α] : Storable (Option α) where
  encode
    | none => .null
    | some a => encode a
  decode
    | .null => some none
    | d => (decode d).map some

instance {α : Type} [Storable α] : Storable (List α) where
  encode as := .list true (as.map encode)
  decode d := d.items?.bind fun items => items.mapM decode

instance {α : Type} [Storable α] : Storable (Array α) where
  encode as := encode as.toList
  decode d := (decode d : Option (List α)).map List.toArray

end Milling
