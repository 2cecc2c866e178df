import Milling.Data.Datum
import Milling.Scene.Depth
import Milling.Scene.Stock
/-!
The stored forms of points, boxes, blocks of material, windows of heights and colours.
-/

namespace Milling

open Datum (required)

instance : Storable Point where
  encode p := .record [("x", encode p.x), ("y", encode p.y), ("z", encode p.z)]
  decode d := do
    let [x, y, z] ← d.fields? ["x", "y", "z"] false | none
    some ⟨← required x, ← required y, ← required z⟩

instance : Storable Box where
  encode b := .record [("min", encode b.min), ("max", encode b.max)]
  decode d := do
    let [low, high] ← d.fields? ["min", "max"] false | none
    some ⟨← required low, ← required high⟩

instance : Storable Stock where
  encode s :=
    .record [("width", encode s.width), ("depth", encode s.depth), ("height", encode s.height),
      ("center", encode s.center)]
  decode d := do
    let [width, depth, height, center] ←
      d.fields? ["width", "depth", "height", "center"] false | none
    some ⟨← required width, ← required depth, ← required height, ← required center⟩

instance : Storable DepthWindow where
  encode w := .record [("min", encode w.min), ("max", encode w.max)]
  decode d := do
    let [low, high] ← d.fields? ["min", "max"] false | none
    some ⟨← required low, ← required high⟩

instance : Storable Rgb where
  encode c := .record [("r", encode c.r), ("g", encode c.g), ("b", encode c.b)]
  decode d := do
    let [r, g, b] ← d.fields? ["r", "g", "b"] false | none
    some ⟨← required r, ← required g, ← required b⟩

end Milling
