import Milling.Playback
/-!
Playing a program to its end in frames of equal length.

Within one segment every frame adds the same to the progress, so the segment's duration is worked
out once and not for each frame. A frame that adds nothing is followed by nothing else, so the
remaining frames are spent at once.
-/

namespace Milling.Simulation

structure Outcome where
  frames : Nat
  state : Playback
deriving Inhabited

/-- The frames after which a simulation is given up. -/
def frameLimit : Nat := 50000000

/-- Adds the gain of a frame to the progress as long as this does not complete the segment. Returns
the frames that are left, the completing one among them, and the progress before it; no frame is
left if the segment is never completed. -/
def glide (gain : Float) : Nat → Float → Nat × Float
  | 0, progress => (0, progress)
  | left + 1, progress =>
    let next := progress + gain
    if next < 1.0 then
      if next == progress then (0, progress) else glide gain left next
    else (left + 1, progress)

/-- Plays at most `left` frames until playback pauses, on at most the given count of segments.
Returns the frames that are left and the state. -/
def run (p : Program) (elapsed : Float) : Nat → Nat → Playback → Nat × Playback
  | 0, left, s => (left, s)
  | segments + 1, left, s =>
    if left = 0 || !s.playing then (left, s)
    else if s.atEnd p then (left - 1, s.pause)
    else
      let duration := Timing.duration p s.index (s.index + 1)
      match glide (Playback.usable elapsed * s.speed / duration) left s.progress with
      | (0, progress) => (0, { s with progress })
      | (left + 1, progress) =>
        let here : Playback := { s with progress }
        run p elapsed segments left (here.advance p.lastIndex duration elapsed).2

/-- Plays a program from the start at the given speed. -/
def play (p : Program) (speed elapsed : Float) : Outcome :=
  let (left, state) := run p elapsed (p.lastIndex + 1) frameLimit (Playback.ofSpeed speed).play
  ⟨frameLimit - left, state⟩

end Milling.Simulation
