import Milling.Block.Comment
import Milling.Block.Word
/-!
Reading one block: its text, its first comment and its fields.
-/

namespace Milling

/-- A block that is not blank. `fields` is `none` if nothing but comments is on it. -/
structure Block where
  text : String
  comment : Option String
  fields : Option Block.Fields
deriving Inhabited

namespace Block

def read (s : List Char) : Option Block :=
  let text := Text.trim s
  if text.isEmpty then none
  else
    let code := Block.code text
    some
      { text := String.ofList text
        comment := (comment? text).map String.ofList
        fields := if code.isEmpty then none else some (readFields code) }

end Block

end Milling
