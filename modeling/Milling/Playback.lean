import Milling.Timing
import Milling.Binary64.Exact
/-!
Playing a toolpath: where the tool is, and how it moves on as time passes.

The tool stands at the point `index` and has gone the fraction `progress` of the way to the next.
The caller tells how much time has passed; speed is a factor between a quarter and four.
-/

namespace Milling

structure Playback where
  index : Nat
  progress : Float
  playing : Bool
  speed : Float
deriving BEq, DecidableEq, Inhabited

namespace Playback

def leastSpeed : Float := 0.25

def greatestSpeed : Float := 4.0

def offeredSpeeds : List Float := [0.25, 0.5, 1.0, 2.0, 4.0]

/-- A finite number above zero, limited to the range of speeds; anything else is no speed. -/
def speed? (x : Float) : Option Float :=
  if Binary64.isPositive x then some (Binary64.clamp x leastSpeed greatestSpeed) else none

/-- At the start, paused, at normal speed. -/
def initial : Playback := ⟨0, 0.0, false, 1.0⟩

/-- At the start with a given speed, normal speed if it is none. -/
def ofSpeed (x : Float) : Playback :=
  { initial with speed := (speed? x).getD initial.speed }

/-! ### Transport -/

def play (s : Playback) : Playback := { s with playing := true }

def pause (s : Playback) : Playback := { s with playing := false }

def toggle (s : Playback) : Playback := { s with playing := !s.playing }

def reset (s : Playback) : Playback := { s with index := 0, progress := 0.0 }

def stop (s : Playback) : Playback := s.pause.reset

/-- Goes to a point, the last one if the index is too large. -/
def seek (s : Playback) (p : Program) (index : Nat) : Playback :=
  { s with index := min index p.lastIndex, progress := 0.0 }

/-- Goes one point on, not past the last. -/
def stepForward (s : Playback) (p : Program) : Playback :=
  s.seek p (s.index + 1)

/-- Goes one point back, not past the first. -/
def stepBackward (s : Playback) : Playback :=
  { s with index := s.index - 1, progress := 0.0 }

/-- The index at a fraction of the toolpath. A fraction that is not finite is the start. -/
def indexAt (p : Program) (fraction : Float) : Nat :=
  let fraction := if fraction.isFinite then Binary64.clamp fraction 0.0 1.0 else 0.0
  Binary64.floorNat (fraction * Float.ofNat p.lastIndex)

/-- Goes to the point at a fraction of the toolpath. -/
def seekFraction (s : Playback) (p : Program) (fraction : Float) : Playback :=
  s.seek p (indexAt p fraction)

/-! ### Speed -/

/-- Sets the speed; `none` if the number is no speed. -/
def setSpeed (s : Playback) (x : Float) : Option Playback :=
  (speed? x).map fun speed => { s with speed }

def speedUp (s : Playback) : Playback :=
  { s with speed := Binary64.lesser (s.speed * 2.0) greatestSpeed }

def speedDown (s : Playback) : Playback :=
  { s with speed := Binary64.greater (s.speed / 2.0) leastSpeed }

/-! ### Time -/

def atEnd (s : Playback) (p : Program) : Bool :=
  p.lastIndex ≤ s.index

/-- The part of the elapsed time that counts: a clock that stands still or runs backwards does not
move the tool. -/
def usable (elapsed : Float) : Float :=
  if Binary64.isPositive elapsed then elapsed else 0.0

/-- Lets time pass on a segment of the given duration before the point `last`. The flag tells
whether the next point was reached. -/
def advance (s : Playback) (last : Nat) (duration elapsed : Float) : Bool × Playback :=
  let progress := s.progress + usable elapsed * s.speed / duration
  if progress < 1.0 then (false, { s with progress })
  else
    (true, { s with
      index := s.index + 1, progress := 0.0, playing := s.playing && s.index + 1 < last })

/-- Lets time pass. Playback pauses at the last point. The flag tells whether the tool reached the
next point. -/
def tick (s : Playback) (p : Program) (elapsed : Float) : Bool × Playback :=
  if !s.playing then (false, s)
  else if s.atEnd p then (false, s.pause)
  else s.advance p.lastIndex (Timing.duration p s.index (s.index + 1)) elapsed

/-! ### Where the tool is -/

/-- The position of the tool between its point and the next. -/
def position (s : Playback) (p : Program) : Point :=
  match p.point? s.index with
  | none => p.finalPosition
  | some here =>
    match p.point? (s.index + 1) with
    | some next => here.position.lerp next.position s.progress
    | none => here.position

/-- How much of the toolpath lies behind the tool, counted in points. -/
def percent (s : Playback) (p : Program) : Float :=
  if p.lastIndex = 0 then 0.0
  else Float.ofNat (min s.index p.lastIndex) / Float.ofNat p.lastIndex * 100.0

end Playback

end Milling
