import Milling.Space.Point
/-!
Marks: positions that the user measures between. The last two are kept.
-/

namespace Milling

structure Mark where
  position : Point
  label : String
deriving BEq, Inhabited

namespace Mark

def kept : Nat := 2

/-- Adds a mark. The oldest goes if there are as many as are kept. -/
def push (marks : List Mark) (mark : Mark) : List Mark :=
  (if kept ≤ marks.length then marks.tail else marks) ++ [mark]

/-- The label of the mark that comes after the given ones. -/
def nextLabel (marks : List Mark) : String :=
  "P" ++ toString (marks.length + 1)

end Mark

/-- How far two positions are apart, and how far along each axis. -/
structure Measurement where
  total : Float
  dx : Float
  dy : Float
  dz : Float
deriving BEq, Inhabited

namespace Measurement

/-- Measures between two positions. -/
def between (a b : Point) : Measurement :=
  ⟨a.distance b, (b.x - a.x).abs, (b.y - a.y).abs, (b.z - a.z).abs⟩

/-- Measures between the last two marks. -/
def ofMarks (marks : List Mark) : Option Measurement :=
  match marks.reverse with
  | b :: a :: _ => some (between a.position b.position)
  | _ => none

end Measurement

end Milling
