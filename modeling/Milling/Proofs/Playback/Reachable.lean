import Milling.Proofs.Playback
/-!
The states of playback that can arise.

`Playback.Reachable` is every state that the requests of a front end lead to, with any index,
fraction, speed and elapsed time. In all of them the tool is on the toolpath and the speed is within
its range (`Reachable.placed`, `Reachable.isSpeed`).
-/

namespace Milling.Playback

open Binary64

inductive Request
  | play
  | pause
  | toggle
  | stop
  | reset
  | stepForward
  | stepBackward
  | seek (index : Nat)
  | seekFraction (fraction : Float)
  | setSpeed (speed : Float)
  | speedUp
  | speedDown
  | tick (elapsed : Float)

/-- The state after a request. A number that is no speed changes nothing. -/
def serve (s : Playback) (p : Program) : Request → Playback
  | .play => s.play
  | .pause => s.pause
  | .toggle => s.toggle
  | .stop => s.stop
  | .reset => s.reset
  | .stepForward => s.stepForward p
  | .stepBackward => s.stepBackward
  | .seek index => s.seek p index
  | .seekFraction fraction => s.seekFraction p fraction
  | .setSpeed speed => (s.setSpeed speed).getD s
  | .speedUp => s.speedUp
  | .speedDown => s.speedDown
  | .tick elapsed => (s.tick p elapsed).2

/-- The states that requests lead to on a program, from the start at normal or at a given speed. -/
inductive Reachable (p : Program) : Playback → Prop
  | initial : Reachable p initial
  | ofSpeed (speed : Float) : Reachable p (ofSpeed speed)
  | serve {s : Playback} (r : Request) : Reachable p s → Reachable p (s.serve p r)

theorem isSpeed_ofSpeed (x : Float) : IsSpeed (ofSpeed x).speed := by
  change IsSpeed ((speed? x).getD initial.speed)
  cases h : speed? x with
  | none => exact isSpeed_initial
  | some y => exact isSpeed_of_speed? h

section Serve

variable {s : Playback} {p : Program}

/-- No request takes the speed out of its range. -/
theorem IsSpeed.serve (h : IsSpeed s.speed) (r : Request) : IsSpeed (s.serve p r).speed := by
  cases r with
  | speedUp => exact isSpeed_speedUp h
  | speedDown => exact isSpeed_speedDown h
  | tick elapsed => exact (speed_tick s p elapsed).symm ▸ h
  | setSpeed speed =>
    change IsSpeed ((s.setSpeed speed).getD s).speed
    cases hset : s.setSpeed speed with
    | none => exact h
    | some t =>
      obtain ⟨x, hx, rfl⟩ := Option.map_eq_some_iff.mp hset
      exact isSpeed_of_speed? hx
  | _ => exact h

/-- No request takes the tool off the toolpath. -/
theorem Placed.serve (h : s.Placed p.lastIndex) (hspeed : IsSpeed s.speed) (r : Request) :
    (s.serve p r).Placed p.lastIndex := by
  cases r with
  | stop => exact placed_stop s _
  | reset => exact placed_reset s _
  | stepForward => exact placed_seek s p _
  | stepBackward => exact h.stepBackward
  | seek index => exact placed_seek s p index
  | seekFraction fraction => exact placed_seek s p _
  | tick elapsed => exact h.tick hspeed elapsed
  | setSpeed speed =>
    change ((s.setSpeed speed).getD s).Placed _
    cases hset : s.setSpeed speed with
    | none => exact h
    | some t =>
      obtain ⟨x, -, rfl⟩ := Option.map_eq_some_iff.mp hset
      exact h.congr rfl rfl
  | _ => exact h.congr rfl rfl

theorem Reachable.isSpeed (h : Reachable p s) : IsSpeed s.speed := by
  induction h with
  | initial => exact isSpeed_initial
  | ofSpeed speed => exact isSpeed_ofSpeed speed
  | serve r _ ih => exact ih.serve r

theorem Reachable.placed (h : Reachable p s) : s.Placed p.lastIndex := by
  induction h with
  | initial => exact placed_at (Nat.zero_le _) rfl
  | ofSpeed speed => exact placed_at (Nat.zero_le _) rfl
  | serve r hs ih => exact ih.serve hs.isSpeed r

end Serve

end Milling.Playback
