/-!
Kinds of motion: what a command asks for, and how a point of the toolpath is reached.
-/

namespace Milling

/-- The motion of a command. -/
inductive Motion
  | rapid
  | linear
  | arcClockwise
  | arcCounterclockwise
  | other
deriving DecidableEq, Inhabited

namespace Motion

/-- The motion that a G code selects; only the codes 0 to 3 select one. -/
def ofCode? : Nat → Option Motion
  | 0 => some rapid
  | 1 => some linear
  | 2 => some arcClockwise
  | 3 => some arcCounterclockwise
  | _ => none

/-- The motion follows a circle. -/
def isArc : Motion → Bool
  | arcClockwise | arcCounterclockwise => true
  | _ => false

def all : List Motion :=
  [rapid, linear, arcClockwise, arcCounterclockwise, other]

def label : Motion → String
  | rapid => "rapid"
  | linear => "linear"
  | arcClockwise => "arc-cw"
  | arcCounterclockwise => "arc-ccw"
  | other => "other"

end Motion

/-- How the tool reaches a point: over the work or through it. -/
inductive MoveKind
  | rapid
  | cutting
deriving DecidableEq, Inhabited

namespace MoveKind

/-- Every motion except rapid cuts. -/
def ofMotion : Motion → MoveKind
  | .rapid => rapid
  | _ => cutting

def all : List MoveKind :=
  [rapid, cutting]

def label : MoveKind → String
  | rapid => "RAPID"
  | cutting => "CUT"

end MoveKind

end Milling
