import Milling.Playback
/-!
What the front end shows of a running program: the split into done and remaining segments, and the
status line.

A segment has the index of the point it leads to, so index 0 names none.
-/

namespace Milling

/-- The segments already passed, and the remaining ones by their kind, in ascending order. -/
structure Progress where
  completed : List Nat
  cutting : List Nat
  rapid : List Nat
deriving BEq, Inhabited

namespace Progress

/-- The indices of the segments of a program with their kinds. -/
def indexed (p : Program) : List (ToolPoint × Nat) :=
  p.toolpath.toList.zipIdx.drop 1

/-- The split of a program at the point `current`. -/
def ofProgram (p : Program) (current : Nat) : Progress :=
  let (done, left) := (indexed p).partition fun s => s.2 ≤ current
  let (rapid, cutting) := left.partition fun s => s.1.kind == .rapid
  ⟨done.map (·.2), cutting.map (·.2), rapid.map (·.2)⟩

end Progress

/-- The status line: the point at which the tool stands and the command that led there. -/
structure Status where
  position : Point
  kind : MoveKind
  line : Nat
  text : Option String
  index : Nat
  total : Nat
deriving BEq, Inhabited

namespace Status

/-- The status of a program under a state of playback. -/
def capture (p : Program) (s : Playback) : Status :=
  let index := min s.index p.lastIndex
  let point := (p.point? index).getD .start
  { position := point.position
    kind := point.kind
    line := point.line
    text := (p.commandAt? point.line).map (·.text)
    index
    total := p.size }

end Status

end Milling
