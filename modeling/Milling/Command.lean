import Milling.Block.Reading
import Milling.Motion
/-!
Commands: what a block of a program asks the machine to do.
-/

namespace Milling

/-- A block with its line, its motion and its numbers. -/
structure Command where
  line : Nat
  text : String
  motion : Motion
  g : Option Nat
  x : Option Float
  y : Option Float
  z : Option Float
  feed : Option Float
  i : Option Float
  j : Option Float
  k : Option Float
  comment : Option String
deriving BEq, DecidableEq, Inhabited

namespace Command

def ofComment (line : Nat) (text : String) (comment : Option String) : Command :=
  { line, text, comment, motion := .other, g := none, x := none, y := none, z := none,
    feed := none, i := none, j := none, k := none }

/-- The command of a block whose motion is known. -/
def ofFields (line : Nat) (text : String) (comment : Option String) (motion : Motion)
    (w : Block.Fields) : Command :=
  { line, text, comment, motion, g := w.g, x := w.x, y := w.y, z := w.z, feed := w.f,
    i := w.i, j := w.j, k := w.k }

def hasAxis (c : Command) : Bool :=
  c.x.isSome || c.y.isSome || c.z.isSome

def hasOffset (c : Command) : Bool :=
  c.i.isSome || c.j.isSome

def display (c : Command) : String :=
  "[" ++ toString c.line ++ "] " ++ c.motion.label ++ ": " ++ c.text

end Command

end Milling
