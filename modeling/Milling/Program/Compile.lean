import Milling.Arc
import Milling.Program.Basic
/-!
Compiling a program.

The machine holds a motion mode and a commanded position. A block with one of the codes G0 to G3
sets the mode; a block with a coordinate moves on the axes it names, in the mode if it has no such
code itself. An arc starts where the tool stands, which is the last point of the toolpath and after
an arc not always the commanded position.
-/

namespace Milling

/-- What the machine carries from block to block. -/
structure Machine where
  /-- The mode for blocks that give coordinates without a motion code. -/
  mode : Motion
  /-- The commanded position. -/
  target : Point
  /-- The position of the last point of the toolpath. -/
  tool : Point
deriving Inhabited

/-- What a block adds to the program. -/
structure Step where
  command : Command
  /-- The points of the toolpath. -/
  path : List ToolPoint
  /-- The commanded position, if the block moves. -/
  target : Option Point
deriving Inhabited

namespace Machine

def initial : Machine := ⟨.rapid, .origin, .origin⟩

def motion (m : Machine) (w : Block.Fields) : Motion :=
  match w.g.bind Motion.ofCode? with
  | some motion => motion
  | none => if w.hasAxis then m.mode else .other

/-- The mode after a block. -/
def nextMode (m : Machine) (w : Block.Fields) : Motion :=
  (w.g.bind Motion.ofCode?).getD m.mode

/-- The commanded position after a block: axes that are not named keep their value. -/
def nextTarget (m : Machine) (w : Block.Fields) : Point :=
  ⟨w.x.getD m.target.x, w.y.getD m.target.y, w.z.getD m.target.z⟩

/-- The points that a moving block adds. -/
def path (m : Machine) (line : Nat) (w : Block.Fields) : List ToolPoint :=
  let motion := m.motion w
  let target := m.nextTarget w
  if motion.isArc && w.hasOffset then
    (Arc.points m.tool target (w.i.getD 0.0) (w.j.getD 0.0) (motion == .arcClockwise)).map
      fun p => ⟨p, .cutting, line⟩
  else [⟨target, .ofMotion motion, line⟩]

/-- Carries out one block on the given line. -/
def step (m : Machine) (line : Nat) (b : Block) : Step × Machine :=
  match b.fields with
  | none => (⟨.ofComment line b.text b.comment, [], none⟩, m)
  | some w =>
    let command := Command.ofFields line b.text b.comment (m.motion w) w
    if w.hasAxis then
      let path := m.path line w
      let target := m.nextTarget w
      let tool := match path.getLast? with
        | some last => last.position
        | none => m.tool
      (⟨command, path, some target⟩, ⟨m.nextMode w, target, tool⟩)
    else (⟨command, [], none⟩, { m with mode := m.nextMode w })

end Machine

/-- A run in progress: the steps so far and the machine after them. -/
structure Run where
  steps : Array Step
  machine : Machine
deriving Inhabited

namespace Run

def initial : Run := ⟨#[], .initial⟩

/-- Carries out the block on a line; a blank line does nothing. -/
def line (r : Run) (numbered : List Char × Nat) : Run :=
  match Block.read numbered.1 with
  | none => r
  | some b =>
    let (s, machine) := r.machine.step numbered.2 b
    ⟨r.steps.push s, machine⟩

def lines (r : Run) (numbered : List (List Char × Nat)) : Run :=
  numbered.foldl line r

end Run

namespace Program

def numberedLines (source : String) : List (List Char × Nat) :=
  (source.toList.splitOn '\n').zipIdx

/-- The program that a run has built. The box takes in the toolpath and the commanded positions,
since an arc may end off its target; a program without moves gets the unit cube. -/
def ofSteps (steps : List Step) : Program :=
  let toolpath := ToolPoint.start :: steps.flatMap (·.path)
  let targets := steps.filterMap (·.target)
  let bounds :=
    if toolpath.length = 1 then Box.unit
    else ((Extremes.empty.insertAll (toolpath.map (·.position))).insertAll targets).box
  { commands := (steps.map (·.command)).toArray, toolpath := toolpath.toArray, bounds }

def compile (source : String) : Program :=
  ofSteps (Run.initial.lines (numberedLines source)).steps.toList

end Program

end Milling
