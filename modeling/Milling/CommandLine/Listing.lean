import Milling.Lint.Check
import Milling.Program.Compile
import Milling.Simulation
import Milling.Template.Library
import Milling.Totals
import Milling.Units
/-!
What the command line prints about programs.
-/

namespace Milling.CommandLine

def unlines (lines : List String) : String :=
  String.join (lines.map (· ++ "\n"))

/-- A text with blanks after it up to a width. -/
def padded (width : Nat) (s : String) : String :=
  s ++ String.ofList (List.replicate (width - s.length) ' ')

def point (p : Point) : String :=
  Units.point p.x p.y p.z

def stats (name : String) (p : Program) : String :=
  let t := Totals.ofProgram p
  let size := p.bounds.extents
  unlines
    [name,
     "  commands:        " ++ toString p.commands.size,
     "  toolpath points: " ++ toString p.size,
     "  bounds min:      " ++ point p.bounds.min,
     "  bounds max:      " ++ point p.bounds.max,
     "  size:            " ++ Units.distance size.x ++ " x " ++ Units.distance size.y ++ " x " ++
       Units.distance size.z,
     "  total distance:  " ++ Units.distance t.distance,
     "  cutting:         " ++ Units.distance t.cuttingDistance ++ " (" ++
       toString t.cuttingMoves ++ " moves, " ++ toString t.arcMoves ++ " arc)",
     "  rapid:           " ++ Units.distance t.rapidDistance ++ " (" ++ toString t.rapidMoves ++
       " moves)",
     "  estimated time:  " ++ Units.time t.seconds,
     "  pointer scale:   " ++ Decimal.fixed 3 (Timing.pointerScale p)]

def issues (name : String) (r : Lint.Report) : String :=
  unlines (r.issues.map fun i => name ++ ":" ++ i.display) ++
    unlines
      [name ++ ": " ++ toString r.errors ++ " errors, " ++ toString r.warnings ++ " warnings"]

/-- How playing a program in frames of the given length went. -/
def simulation (name : String) (p : Program) (fps : Nat) (frame : Float)
    (o : Simulation.Outcome) : String :=
  unlines
    [name,
     "  speed:           " ++ Decimal.inMessage.write o.state.speed ++ "x at " ++ toString fps ++
       " fps",
     "  frames:          " ++ toString o.frames,
     "  simulated time:  " ++ Units.time (Float.ofNat o.frames * frame),
     "  final position:  " ++ point (o.state.position p),
     "  progress:        " ++ Decimal.fixed 1 (o.state.percent p) ++ "%"]

def templates : String :=
  unlines (Template.library.map fun t =>
    padded 10 t.id ++ " " ++ padded 18 t.name ++ " " ++ t.description)

end Milling.CommandLine
