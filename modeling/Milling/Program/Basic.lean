import Milling.Command
import Milling.Space.Box
/-!
Compiled programs: commands in the order of their lines, the toolpath, and the box around it.
-/

namespace Milling

/-- A point that the tool reaches, how it gets there, and the line that sends it. -/
structure ToolPoint where
  position : Point
  kind : MoveKind
  line : Nat
deriving BEq, Inhabited

/-- The tool before the first move. -/
def ToolPoint.start : ToolPoint := ⟨.origin, .rapid, 0⟩

/-- A program ready to be shown, timed and played. -/
structure Program where
  commands : Array Command
  toolpath : Array ToolPoint
  bounds : Box
deriving BEq, Inhabited

namespace Program

def size (p : Program) : Nat :=
  p.toolpath.size

/-- The index of the last point, 0 if there is none. -/
def lastIndex (p : Program) : Nat :=
  p.size - 1

def point? (p : Program) (index : Nat) : Option ToolPoint :=
  p.toolpath[index]?

/-- The position at which the tool comes to rest. -/
def finalPosition (p : Program) : Point :=
  match p.toolpath.back? with
  | some last => last.position
  | none => .origin

/-- Looks for the command of a line among the commands with indices from `low` to below `high`,
which are in ascending order of their lines, by halving the range. -/
def search (commands : Array Command) (line low high : Nat) : Option Command :=
  if low < high then
    let middle := (low + high) / 2
    match commands[middle]? with
    | none => none
    | some c =>
      if c.line = line then some c
      else if c.line < line then search commands line (middle + 1) high
      else search commands line low middle
  else none
termination_by high - low

def commandAt? (p : Program) (line : Nat) : Option Command :=
  search p.commands line 0 p.commands.size

/-- The command that sends the tool to the point at an index. -/
def commandOf? (p : Program) (index : Nat) : Option Command :=
  (p.point? index).bind fun point => p.commandAt? point.line

/-- The segments of the toolpath, each by its two ends. -/
def segments (p : Program) : List (ToolPoint × ToolPoint) :=
  p.toolpath.toList.zip p.toolpath.toList.tail

end Program

end Milling
