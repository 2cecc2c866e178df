import Milling.Data.Geometry
import Milling.Preferences.Material
/-!
The block of material that the user sets up.
-/

namespace Milling

/-- The block of material: found from the program, or given by its edges and the middle of its
upper face. -/
structure Workpiece where
  manual : Bool
  material : String
  dimensions : Point
  origin : Point
deriving BEq, Inhabited

namespace Workpiece

/-- An aluminium plate that is found from the program. -/
def initial : Workpiece := ⟨false, "aluminum", ⟨100.0, 100.0, 20.0⟩, .origin⟩

def preset (w : Workpiece) : Option Material :=
  Material.find? w.material

/-- The block for a program in the given box. -/
def stock (w : Workpiece) (b : Box) : Stock :=
  if w.manual then
    { width := w.dimensions.x
      depth := w.dimensions.y
      height := w.dimensions.z
      center := ⟨w.origin.x, w.origin.y, w.origin.z - w.dimensions.z / 2.0⟩ }
  else Stock.around b

def keys : List String :=
  ["manual_mode", "material", "dimensions", "origin"]

instance : Storable Workpiece where
  encode w :=
    .record [("manual_mode", encode w.manual), ("material", encode w.material),
      ("dimensions", encode w.dimensions), ("origin", encode w.origin)]
  decode d := do
    let [manual, material, dimensions, origin] ← d.fields? keys true | none
    some
      ⟨← Datum.withDefault initial.manual manual, ← Datum.withDefault initial.material material,
        ← Datum.withDefault initial.dimensions dimensions,
        ← Datum.withDefault initial.origin origin⟩

end Workpiece

end Milling
