import Milling.Binary64.Exact
import Milling.Binary64.Plane
import Milling.Space.Point
/-!
Arcs as chains of points.

The centre is given relative to the start. The arc runs in the plane of x and y while z changes in
proportion, and it runs at least a little: an end in the direction of the start is a full turn.
The end only fixes the angle, so the last point of the chain lies on the circle of the start.
-/

namespace Milling.Arc

/-- The greatest angle that one segment covers, a sixteenth of half a turn. -/
def segmentAngle : Float := Binary64.pi / 16.0

def leastSegments : Nat := 8

/-- A circle with the angles at which the arc starts and ends. -/
structure Course where
  center : Float × Float
  radius : Float
  start : Float
  sweep : Float
deriving Inhabited

def endAngle (start finish : Float) (clockwise : Bool) : Float :=
  if clockwise then
    if start ≤ finish then finish - 2.0 * Binary64.pi else finish
  else
    if finish ≤ start then finish + 2.0 * Binary64.pi else finish

def course (a b : Point) (i j : Float) (clockwise : Bool) : Course :=
  let cx := a.x + i
  let cy := a.y + j
  let start := Binary64.direction (a.y - cy) (a.x - cx)
  let finish := Binary64.direction (b.y - cy) (b.x - cx)
  { center := (cx, cy)
    radius := Binary64.length i j
    start
    sweep := endAngle start finish clockwise - start }

def Course.segments (c : Course) : Nat :=
  max (Binary64.ceilNat (c.sweep.abs / segmentAngle)) leastSegments

/-- The point of a course after the fraction `t` of its sweep, at the given height. -/
def Course.pointAt (c : Course) (t z : Float) : Point :=
  let angle := c.start + c.sweep * t
  ⟨c.center.1 + c.radius * angle.cos, c.center.2 + c.radius * angle.sin, z⟩

/-- The points of an arc after its start, at equal steps of the sweep. -/
def points (a b : Point) (i j : Float) (clockwise : Bool) : List Point :=
  let c := course a b i j clockwise
  (List.range c.segments).map fun n =>
    let t := Float.ofNat (n + 1) / Float.ofNat c.segments
    c.pointAt t (a.z + (b.z - a.z) * t)

end Milling.Arc
