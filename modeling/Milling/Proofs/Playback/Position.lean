import Milling.Proofs.Binary64.Interpolation
import Milling.Proofs.Playback.Reachable
import Milling.Proofs.Scene.Status
import Milling.Proofs.Space.Extremes
/-!
Where the tool is when it stands at a point.

The position of the tool is interpolated even if no part of the way to the next point is gone, so it
depends on a point that the tool has not reached. `exists_standsAt` tells when this does no harm:
the tool is at its point if and only if the way to the next point is finite on every axis, and else
it has lost a coordinate. The status line shows the point itself.
-/

namespace Milling

namespace Point

def way (a b : Point) : Point :=
  ⟨b.x - a.x, b.y - a.y, b.z - a.z⟩

theorem coord_way (a b : Point) (axis : Axis) : (a.way b).coord axis = b.coord axis - a.coord axis := by
  cases axis <;> rfl

/-- On every axis the tool has gone the fraction of the difference. -/
theorem coord_lerp (a b : Point) (t : Float) (axis : Axis) :
    (a.lerp b t).coord axis = a.coord axis + (b.coord axis - a.coord axis) * t := by
  cases axis <;> rfl

theorem beq_self_of_isFinite {a : Point} (ha : a.isFinite = true) : (a == a) = true := by
  refine beq_iff.mpr fun axis => ?_
  obtain ⟨v, hv⟩ := (Binary64.isFinite_iff _).mp (isFinite_iff.mp ha axis)
  exact (Binary64.beq_iff_value hv).mpr hv

theorem not_beq_of_isNaN {a : Point} {axis : Axis} (h : (a.coord axis).isNaN = true) (b : Point) :
    ¬ (a == b) = true :=
  fun hsame => Binary64.not_beq_of_isNaN h _ (beq_iff.mp hsame axis)

/-- Nothing of the way to another point leads away from a point, provided that the way is finite. -/
theorem lerp_beq_iff {a b : Point} {t : Float} (ha : a.isFinite = true)
    (ht : (t == 0.0) = true) : (a.lerp b t == a) = true ↔ (a.way b).isFinite = true := by
  rw [beq_iff, isFinite_iff]
  refine forall_congr' fun axis => ?_
  rw [coord_lerp, coord_way]
  exact Binary64.lerp_zero_beq_iff (isFinite_iff.mp ha axis) ht

end Point

namespace Playback

open Program

/-- The tool stands at a point: the status line shows this point, and the tool is there if and only
if the way to the next point, if there is one, is finite. Where it is not, the tool has no
coordinate. -/
structure StandsAt (p : Program) (s : Playback) (here : ToolPoint) : Prop where
  point : p.point? s.index = some here
  status : (Status.capture p s).position = here.position
  position : here.position.isFinite = true →
    ((s.position p == here.position) = true ↔
      ∀ next, p.point? (s.index + 1) = some next →
        (here.position.way next.position).isFinite = true)
  lost : ∀ next, p.point? (s.index + 1) = some next → ∀ axis,
    ((here.position.way next.position).coord axis).isFinite = false →
      ((s.position p).coord axis).isNaN = true

section

variable {p : Program} {s : Playback} {here next : ToolPoint}

/-- Before the last point the tool is between its point and the next. -/
theorem position_of_next (h : p.point? s.index = some here)
    (hnext : p.point? (s.index + 1) = some next) :
    s.position p = here.position.lerp next.position s.progress := by
  rw [Playback.position, h, hnext]

theorem position_of_last (h : p.point? s.index = some here)
    (hnext : p.point? (s.index + 1) = none) : s.position p = here.position := by
  rw [Playback.position, h, hnext]

/-- Without progress the tool stands at its point. -/
theorem standsAt_of_point? (hplaced : s.Placed p.lastIndex)
    (hprogress : (s.progress == 0.0) = true) (h : p.point? s.index = some here) :
    StandsAt p s here where
  point := h
  status := by
    rw [← Nat.min_eq_left hplaced.index] at h
    rw [Status.capture_of_point? h]
  position hfinite := by
    cases hnext : p.point? (s.index + 1) with
    | none =>
      rw [position_of_last h hnext]
      refine iff_of_true (Point.beq_self_of_isFinite hfinite) ?_
      intro next hsome
      cases hsome
    | some next =>
      rw [position_of_next h hnext]
      simp only [Option.some_inj, forall_eq']
      exact Point.lerp_beq_iff hfinite hprogress
  lost next hnext axis hway := by
    rw [position_of_next h hnext, Point.coord_lerp]
    rw [Point.coord_way] at hway
    exact Binary64.isNaN_lerp_zero hway hprogress

end

/-- In every state that playback reaches on a compiled text without progress on a segment, the tool
stands at a point. -/
theorem exists_standsAt (source : String) {s : Playback} (hs : Reachable (compile source) s)
    (hprogress : (s.progress == 0.0) = true) : ∃ here, StandsAt (compile source) s here := by
  obtain ⟨here, h⟩ := Status.exists_point? source s.index
  rw [Nat.min_eq_left hs.placed.index] at h
  exact ⟨here, standsAt_of_point? hs.placed hprogress h⟩

/-- The tool has reached the first of two moves by a tick. -/
theorem exists_standsAt_of_tick :
    let p := compile "G1 X5\nG0 Y-0.5"
    let s := (initial.play.tick p 1.0).2
    (Reachable p s ∧ (s.progress == 0.0) = true) ∧ s.index = 1 ∧ ∃ here, StandsAt p s here := by
  intro p s
  have hreach : Reachable p s := .serve (.tick 1.0) (.serve .play .initial)
  have hprogress : (s.progress == 0.0) = true := by decide +kernel
  exact ⟨⟨hreach, hprogress⟩, by decide +kernel, exists_standsAt _ hreach hprogress⟩

def farMove : List Char :=
  "G1 X1".toList ++ List.replicate 309 '0'

/-- Before such a move the tool stands at the start, and has lost its first coordinate. -/
theorem not_beq_before_farMove :
    let p := compile (String.ofList farMove)
    Reachable p initial ∧ (initial.progress == 0.0) = true ∧
      p.point? initial.index = some .start ∧ ToolPoint.start.position.isFinite = true ∧
      ((initial.position p).coord .x).isNaN = true ∧
      ¬ (initial.position p == ToolPoint.start.position) = true := by
  intro p
  have hlost : ((initial.position (compile (String.ofList farMove))).coord .x).isNaN = true := by
    rw [compile_eq_ofSteps, numberedLines_ofList]
    decide +kernel
  exact ⟨.initial, by decide +kernel, Status.point?_zero _, by decide +kernel, hlost,
    Point.not_beq_of_isNaN hlost _⟩

end Playback

end Milling
