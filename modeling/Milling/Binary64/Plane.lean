import Milling.Binary64.Order
/-!
Lengths and directions in the plane.

The length of a vector neither overflows nor underflows on the way, and the first square root is
corrected once, so that the squares cost no accuracy.
-/

namespace Milling.Binary64

def pi : Float := 3.141592653589793

/-- Length of the vector `(a, b)` for `0 ≤ b ≤ a` whose squares neither overflow nor vanish: the
square root of the sum of squares, with one correction step. -/
def properLength (a b : Float) : Float :=
  let h := Float.sqrt (a * a + b * b)
  if h ≤ 2.0 * b then
    let d := h - b
    h - (a * (2.0 * d - a) + (d - 2.0 * (a - b)) * d) / (2.0 * h)
  else
    let d := h - a
    h - (2.0 * d * (a - 2.0 * b) + ((4.0 * d - b) * b + d * d)) / (2.0 * h)

/-- The scale by which very long and very short vectors are brought into range, `2 ^ 600`. -/
def lengthScale : Float := Float.ofScientific (1 <<< 600) false 0

/-- Above this, `2 ^ 511`, a square may overflow. -/
def longest : Float := Float.ofScientific (1 <<< 511) false 0

/-- Below this, `2 ^ (-459)`, a square may vanish. -/
def shortest : Float := 1.0 / Float.ofScientific (1 <<< 459) false 0

/-- A side that is shorter than this part of the other, `2 ^ (-54)`, does not change the length. -/
def negligible : Float := 1.0 / Float.ofScientific (1 <<< 54) false 0

/-- Length of the vector `(x, y)`. It is infinite as soon as one side is, and else NaN as soon as
one side is. -/
def length (x y : Float) : Float :=
  let u := x.abs
  let v := y.abs
  if u.isInf || v.isInf then 1.0 / 0.0
  else if u.isNaN || v.isNaN then 0.0 / 0.0
  else
    let a := if u < v then v else u
    let b := if u < v then u else v
    if b ≤ a * negligible then a + b
    else if longest < a then properLength (a / lengthScale) (b / lengthScale) * lengthScale
    else if b < shortest then properLength (a * lengthScale) (b * lengthScale) / lengthScale
    else properLength a b

/-- The sign bit is set; this tells `-0` from `0`. -/
def isMinus (x : Float) : Bool :=
  x.toBits >>> 63 == 1

/-- Direction of the vector `(x, y)`, from minus half a turn to half a turn. On the horizontal axis
the sign of a zero `y` tells on which side of the half turn the direction lies. -/
def direction (y x : Float) : Float :=
  if x.isNaN || y.isNaN then 0.0 / 0.0
  else if y == 0.0 then
    if isMinus x then (if isMinus y then -pi else pi) else y
  else if x == 0.0 then
    if isMinus y then -(pi / 2.0) else pi / 2.0
  else lesser (greater (Float.atan2 y x) (-pi)) pi

end Milling.Binary64
