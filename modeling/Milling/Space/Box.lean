import Milling.Binary64.Order
import Milling.Space.Point
/-!
Boxes along the axes, and the smallest box around a set of points.
-/

namespace Milling

/-- The box between two corners. -/
structure Box where
  min : Point
  max : Point
deriving BEq, Inhabited

namespace Box

/-- The unit cube, which stands in for a program that does not move. -/
def unit : Box := ⟨.origin, ⟨1.0, 1.0, 1.0⟩⟩

/-- The lengths of the edges. The height is never negative. -/
def extents (b : Box) : Point :=
  ⟨b.max.x - b.min.x, b.max.y - b.min.y, (b.max.z - b.min.z).abs⟩

def center (b : Box) : Point :=
  b.min.lerp b.max 0.5

def maxExtent (b : Box) : Float :=
  let e := b.extents
  Binary64.greater (Binary64.greater e.x e.y) e.z

def volume (b : Box) : Float :=
  let e := b.extents
  e.x * e.y * e.z

/-- The point is in the box or on its surface. -/
def contains (b : Box) (p : Point) : Bool :=
  (b.min.x ≤ p.x && p.x ≤ b.max.x) &&
    (b.min.y ≤ p.y && p.y ≤ b.max.y) &&
    (b.min.z ≤ p.z && p.z ≤ b.max.z)

end Box

/-- The extremes of the points seen so far. -/
structure Extremes where
  min : Point
  max : Point
deriving Inhabited

namespace Extremes

/-- No point seen: the least is above everything and the greatest below everything. -/
def empty : Extremes :=
  let top : Float := 1.0 / 0.0
  ⟨⟨top, top, top⟩, ⟨-top, -top, -top⟩⟩

/-- Takes in one point. A point with a coordinate that is not finite is passed over. -/
def insert (e : Extremes) (p : Point) : Extremes :=
  if p.isFinite then
    { min := ⟨Binary64.lesser e.min.x p.x, Binary64.lesser e.min.y p.y,
        Binary64.lesser e.min.z p.z⟩
      max := ⟨Binary64.greater e.max.x p.x, Binary64.greater e.max.y p.y,
        Binary64.greater e.max.z p.z⟩ }
  else e

def insertAll (e : Extremes) (ps : List Point) : Extremes :=
  ps.foldl insert e

/-- Some finite point was seen. A program may be flat, so the extremes may coincide. -/
def isValid (e : Extremes) : Bool :=
  e.min.isFinite && e.max.isFinite &&
    (e.min.x ≤ e.max.x && e.min.y ≤ e.max.y && e.min.z ≤ e.max.z)

/-- The box between the extremes, the unit cube if no finite point was seen. -/
def box (e : Extremes) : Box :=
  if e.isValid then ⟨e.min, e.max⟩ else .unit

end Extremes

end Milling
