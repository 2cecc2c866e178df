import Milling.Decimal.Layout
/-!
Quantities as they are shown: lengths in millimetres, times in seconds, feed rates in millimetres
per minute.
-/

namespace Milling.Units

/-- A length, in metres from one metre on. -/
def distance (x : Float) : String :=
  if x ≥ 1000.0 then Decimal.fixed 2 (x / 1000.0) ++ " m" else Decimal.fixed 1 x ++ " mm"

/-- A time, in hours and minutes from an hour on, in minutes and seconds from a minute on. Parts of
the smaller unit are dropped. -/
def time (x : Float) : String :=
  let whole (y : Float) := Decimal.inMessage.write (Binary64.floor y)
  if x ≥ 3600.0 then
    whole (x / 3600.0) ++ "h " ++ whole (Binary64.remainder x 3600.0 / 60.0) ++ "m"
  else if x ≥ 60.0 then
    whole (x / 60.0) ++ "m " ++ whole (Binary64.remainder x 60.0) ++ "s"
  else Decimal.fixed 1 x ++ "s"

/-- A coordinate, to the micrometre. -/
def coordinate (x : Float) : String :=
  Decimal.fixed 3 x

def feed (x : Float) : String :=
  Decimal.fixed 0 x ++ " mm/min"

def point (x y z : Float) : String :=
  "X" ++ coordinate x ++ " Y" ++ coordinate y ++ " Z" ++ coordinate z

end Milling.Units
