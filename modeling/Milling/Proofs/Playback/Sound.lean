import Milling.Program.Compile
import Milling.Proofs.Binary64.Magnitude
import Milling.Proofs.Playback.Reachable
/-!
Sound states of playback.

A front end hands on any index, fraction, speed and elapsed time, also infinite ones and NaN. Still
the place of the tool and the speed are numbers within their ranges at all times, and what is
refused as a speed is told by the number alone (`sound_of_reachable`).
-/

namespace Milling.Playback

open Binary64

/-! ### Refused speeds -/

/-- NaN, an infinity, a zero or a number below zero. -/
def IsNoSpeed (x : Float) : Prop :=
  x.isNaN = true ∨ x.isInf = true ∨ x ≤ 0.0

theorem isInf_of_isFinite {x : Float} (h : x.isFinite = true) : x.isInf = false := by
  unfold Float.isFinite Float.Model.isFinite at h
  unfold Float.isInf Float.Model.isInf
  cases hu : x.toModel.unpack with
  | infinity s =>
    rw [hu] at h
    cases h
  | _ => rfl

theorem isNoSpeed_iff (x : Float) : IsNoSpeed x ↔ isPositive x = false := by
  rw [← Bool.not_eq_true, isPositive_iff]
  cases hfinite : x.isFinite with
  | true =>
    obtain ⟨v, hv⟩ := (isFinite_iff x).mp hfinite
    rw [IsNoSpeed, isNaN_of_value hv, isInf_of_isFinite hfinite, le_iff_of_value hv value_zero]
    simp [hv]
  | false =>
    have hrefused : ¬ ∃ v, value? x = some v ∧ 0 < v := by
      rintro ⟨v, hv, -⟩
      exact Bool.eq_false_iff.mp hfinite (isFinite_of_value hv)
    refine iff_of_true ?_ hrefused
    rcases eq_of_not_isFinite hfinite with rfl | rfl | rfl
    · exact Or.inr (Or.inl (by decide +kernel))
    · exact Or.inr (Or.inl (by decide +kernel))
    · exact Or.inl (by decide +kernel)

/-- What is refused as a speed is what is none. -/
theorem setSpeed_eq_none_iff (s : Playback) (x : Float) : s.setSpeed x = none ↔ IsNoSpeed x := by
  rw [setSpeed, Option.map_eq_none_iff, speed?, isNoSpeed_iff]
  cases isPositive x <;> simp

/-! ### Runs of requests -/

def serveAll (s : Playback) (p : Program) (requests : List Request) : Playback :=
  requests.foldl (serve · p) s

/-- More requests lead to a reachable state again. -/
theorem Reachable.serveAll {p : Program} {s : Playback} (h : Reachable p s)
    (requests : List Request) : Reachable p (s.serveAll p requests) := by
  induction requests generalizing s with
  | nil => exact h
  | cons r requests ih => exact ih (.serve r h)

/-! ### Sound states -/

/-- The place of the tool and the speed are numbers within their ranges. Nothing is refused as a
speed but what is none, and then nothing changes. -/
structure Sound (p : Program) (s : Playback) : Prop where
  index : s.index ≤ p.lastIndex
  progress : 0.0 ≤ s.progress ∧ s.progress < 1.0 ∧ s.progress.isNaN = false
  atLast : s.index = p.lastIndex → s.progress = 0.0
  speed : 0.25 ≤ s.speed ∧ s.speed ≤ 4.0 ∧ s.speed.isNaN = false
  refused : ∀ x, s.setSpeed x = none ↔ IsNoSpeed x
  unchanged : ∀ x, IsNoSpeed x → s.serve p (.setSpeed x) = s

theorem IsSpeed.isNaN_eq {x : Float} (h : IsSpeed x) : x.isNaN = false := by
  obtain ⟨v, hv, -⟩ := h
  exact isNaN_of_value hv

theorem Placed.isNaN_progress {s : Playback} {last : Nat} (h : s.Placed last) :
    s.progress.isNaN = false := by
  have hform := ((zero_le_iff s.progress).mp h.least).2
  exact Bool.eq_false_iff.mpr (mt (isNaN_iff s.progress).mp hform)

/-- Every state that requests lead to is sound, on any program and with any numbers. -/
theorem sound_of_reachable {p : Program} {s : Playback} (h : Reachable p s) : Sound p s where
  index := h.placed.index
  progress := ⟨h.placed.least, h.placed.below, h.placed.isNaN_progress⟩
  atLast := h.placed.atLast
  speed := ⟨h.isSpeed.bounds.1, h.isSpeed.bounds.2, h.isSpeed.isNaN_eq⟩
  refused := setSpeed_eq_none_iff s
  unchanged x hx := by
    change (s.setSpeed x).getD s = s
    rw [(setSpeed_eq_none_iff s x).mpr hx, Option.getD_none]

/-- A run with an index and a speed beyond their ranges, a fraction that is no number, and a clock
that shows what no clock should. -/
theorem sound_of_reachable_disturbed :
    let p := Program.compile "G1 X5\nY3 F0"
    let s := (ofSpeed (1.0 / 0.0)).serveAll p
      [.play, .setSpeed 1e300, .tick (0.0 / 0.0), .tick 0.0625, .seek 18446744073709551615,
        .stepForward, .tick (1.0 / 0.0), .seekFraction (0.0 / 0.0), .setSpeed (-0.0), .play,
        .tick 0.0625]
    Reachable p s ∧ Sound p s ∧ s.index = 0 ∧ 0.0 < s.progress ∧ (s.speed == 4.0) = true := by
  intro p s
  have hreach : Reachable p s := (Reachable.ofSpeed (1.0 / 0.0)).serveAll _
  refine ⟨hreach, sound_of_reachable hreach, ?_⟩
  decide +kernel

end Milling.Playback
