import Milling.Space.Box
/-!
The block of material that a program is cut from, and the scale at which all is drawn.
-/

namespace Milling

/-- A block of material by its edges and its centre. -/
structure Stock where
  width : Float
  depth : Float
  height : Float
  center : Point
deriving BEq, Inhabited

namespace Stock

/-- A block whose upper face lies at height 0. -/
def belowZero (x y width depth height : Float) : Stock :=
  ⟨width, depth, height, ⟨x, y, -height / 2.0⟩⟩

def min (s : Stock) : Point :=
  ⟨s.center.x - s.width / 2.0, s.center.y - s.depth / 2.0, s.center.z - s.height / 2.0⟩

def max (s : Stock) : Point :=
  ⟨s.center.x + s.width / 2.0, s.center.y + s.depth / 2.0, s.center.z + s.height / 2.0⟩

/-- A block that holds a box with a margin on each side, and half as much again below the deepest
cut; no edge is shorter than a millimetre. -/
def around (b : Box) : Stock :=
  let e := b.extents
  let c := b.center
  belowZero c.x c.y (Binary64.greater (e.x * 1.15) 1.0) (Binary64.greater (e.y * 1.15) 1.0)
    (Binary64.greater (b.min.z.abs * 1.5) 1.0)

end Stock

/-- The scale that brings the longest edge of a box to a fixed length; a box without extent gets a
fixed scale. -/
def Box.sceneScale (b : Box) : Float :=
  if b.maxExtent > 0.0 then 1.5 / b.maxExtent else 0.01

end Milling
