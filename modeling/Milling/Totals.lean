import Milling.Timing
/-!
Totals over a toolpath: distances, the time they take, and counts of moves.

Every segment belongs to the kind of the point it reaches. Sums run from the first segment to the
last, as sums of doubles depend on the order.
-/

namespace Milling

/-- Distances in millimetres, time in seconds, counts of segments. -/
structure Totals where
  distance : Float
  rapidDistance : Float
  cuttingDistance : Float
  seconds : Float
  rapidMoves : Nat
  cuttingMoves : Nat
  arcMoves : Nat
deriving BEq, Inhabited

namespace Totals

def zero : Totals := ⟨0.0, 0.0, 0.0, 0.0, 0, 0, 0⟩

def moves (t : Totals) : Nat :=
  t.rapidMoves + t.cuttingMoves

structure Leg where
  distance : Float
  kind : MoveKind
  command : Option Command
deriving Inhabited

def legs (p : Program) : List Leg :=
  p.segments.map fun (a, b) => ⟨a.position.distance b.position, b.kind, p.commandAt? b.line⟩

def Leg.isArc (l : Leg) : Bool :=
  match l.command with
  | some c => c.motion.isArc
  | none => false

def Leg.minutes (l : Leg) : Float :=
  l.distance / Timing.feedRate l.command l.kind

/-- Adds one leg; the time is kept in minutes. -/
def add (t : Totals) (l : Leg) : Totals :=
  let t := { t with distance := t.distance + l.distance, seconds := t.seconds + l.minutes }
  match l.kind with
  | .rapid =>
    { t with rapidDistance := t.rapidDistance + l.distance, rapidMoves := t.rapidMoves + 1 }
  | .cutting =>
    { t with
      cuttingDistance := t.cuttingDistance + l.distance
      cuttingMoves := t.cuttingMoves + 1
      arcMoves := if l.isArc then t.arcMoves + 1 else t.arcMoves }

def ofProgram (p : Program) : Totals :=
  let t := (legs p).foldl add zero
  { t with seconds := t.seconds * 60.0 }

end Totals

end Milling
