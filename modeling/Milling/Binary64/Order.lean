/-!
Least, greatest and limited values of doubles.

A NaN never wins a comparison: the other operand is taken. Of two equal operands, which can differ
only as zeros of either sign, the second is taken.
-/

namespace Milling.Binary64

/-- The lesser of two doubles; a NaN operand is ignored. -/
def lesser (a b : Float) : Float :=
  if a < b ∨ b.isNaN then a else b

/-- The greater of two doubles; a NaN operand is ignored. -/
def greater (a b : Float) : Float :=
  if b < a ∨ b.isNaN then a else b

/-- `x` limited to the range from `low` to `high`. A NaN stays NaN. -/
def clamp (x low high : Float) : Float :=
  if x < low then low else if high < x then high else x

/-- Neither an infinity nor NaN, and above zero. -/
def isPositive (x : Float) : Bool :=
  x.isFinite && x > 0.0

end Milling.Binary64
