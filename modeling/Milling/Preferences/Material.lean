/-!
Materials that a block can be made of, with the colours they are drawn in.
-/

namespace Milling

structure Material where
  id : String
  name : String
  colour : String
deriving DecidableEq, Inhabited

namespace Material

def all : List Material :=
  [⟨"aluminum", "Aluminum", "#a8a9ad"⟩, ⟨"steel", "Steel", "#71797e"⟩,
   ⟨"wood", "Wood", "#8b4513"⟩, ⟨"plastic", "Plastic", "#f5f5dc"⟩,
   ⟨"custom", "Custom", "#2a2d33"⟩]

def find? (id : String) : Option Material :=
  all.find? (·.id == id)

end Material

end Milling
