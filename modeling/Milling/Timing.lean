import Milling.Program.Basic
/-!
How fast the tool moves and how long a segment takes.

Feed rates are in millimetres per minute. A rapid move has a rate of its own; a cutting move has
the rate of its command, and a fixed one if the command gives none that is above zero.
-/

namespace Milling.Timing

/-- The feed rate of a cutting move whose command gives none. -/
def defaultFeed : Float := 500.0

def rapidFeed : Float := 2000.0

/-- The time in seconds for a segment that does not exist. -/
def missingDuration : Float := 0.1

/-- The least time in seconds for a segment. -/
def leastDuration : Float := 0.01

/-- The feed rate of a move of the given kind under a command. -/
def feedRate (command : Option Command) : MoveKind → Float
  | .rapid => rapidFeed
  | .cutting => ((command.bind (·.feed)).filter (· > 0.0)).getD defaultFeed

/-- The time in seconds from one point of the toolpath to another. The kind and the command are
those of the point reached. -/
def duration (p : Program) (start finish : Nat) : Float :=
  match p.point? start, p.point? finish with
  | some a, some b =>
    let feed := feedRate (p.commandAt? b.line) b.kind
    Binary64.greater (a.position.distance b.position / (feed / 60.0)) leastDuration
  | _, _ => missingDuration

/-- The scale at which the tool's pointer is drawn, in proportion to the program. -/
def pointerScale (p : Program) : Float :=
  Binary64.clamp (p.bounds.maxExtent * 0.02) 0.01 0.05

end Milling.Timing
