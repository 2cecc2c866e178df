import Milling.Template.Facing
import Milling.Template.Pocket
import Milling.Template.Drilling
import Milling.Template.Contour
import Milling.Template.Sample
/-!
The built-in programs.
-/

namespace Milling

/-- A built-in program with its name and a short description. -/
structure Template where
  id : String
  name : String
  description : String
  text : String
deriving DecidableEq, Inhabited

namespace Template

def fileName (t : Template) : String :=
  t.id ++ ".nc"

def sample : Template :=
  ⟨"sample", "Sample Program", "Quick demo - square pocket with circle", sampleText⟩

/-- All templates, in the order in which they are listed. -/
def library : List Template :=
  [⟨"facing", "Face Milling", "Surface facing operation - 100x100mm workpiece", facingText⟩,
   ⟨"pocket", "Pocket Milling", "Rectangular pocket - 60x40mm, 8mm deep", pocketText⟩,
   ⟨"drilling", "Drilling Pattern", "4x4 hole pattern - 6mm holes, 15mm deep", drillingText⟩,
   ⟨"contour", "Contour Cut", "Profile cut with arcs - complex shape", contourText⟩,
   sample]

def find? (id : String) : Option Template :=
  library.find? (·.id == id)

/-- The identifiers, in the order in which they are listed. -/
def ids : List String :=
  library.map (·.id)

end Template

end Milling
