/-!
Points in space, in millimetres.
-/

namespace Milling

structure Point where
  x : Float
  y : Float
  z : Float
deriving BEq, Inhabited

namespace Point

/-- Where every program starts. -/
def origin : Point := ⟨0.0, 0.0, 0.0⟩

def isFinite (p : Point) : Bool :=
  p.x.isFinite && p.y.isFinite && p.z.isFinite

def distance (a b : Point) : Float :=
  let dx := b.x - a.x
  let dy := b.y - a.y
  let dz := b.z - a.z
  (dx * dx + dy * dy + dz * dz).sqrt

/-- The point that lies the fraction `t` of the way from `a` to `b`. -/
def lerp (a b : Point) (t : Float) : Point :=
  ⟨a.x + (b.x - a.x) * t, a.y + (b.y - a.y) * t, a.z + (b.z - a.z) * t⟩

end Point

end Milling
