import Milling.Proofs.Binary64.Plane
/-!
Interpolation at the near end.

The fraction zero of the way from one coordinate to another is the first coordinate, as long as the
way has a length. If the difference is infinite or no number, its product with zero is no number,
and the near end is lost.
-/

namespace Milling.Binary64

open Float.Model

variable {x y t : Float} {a : ℚ}

theorem isNaN_of_toModel (h : x.toModel = Float.Model.pack .notANumber) : x.isNaN = true := by
  rw [isNaN_iff, h, unpack_pack (u := .notANumber) trivial trivial]

theorem isNaN_add_right (x : Float) (h : y.isNaN = true) : (x + y).isNaN = true := by
  refine isNaN_of_toModel ?_
  rw [toModel_add, (isNaN_iff y).mp h]
  cases x.toModel.unpack <;> rfl

/-- Nothing that is not finite vanishes when it is multiplied by zero. -/
theorem isNaN_mul_zero (hx : x.isFinite = false) (ht : value? t = some 0) :
    (x * t).isNaN = true := by
  obtain ⟨s, hs⟩ := unpack_of_value_zero ht
  have hmul : (x * t).toModel =
      Float.Model.pack (UnpackedFloat.mul Format.binary64 x.toModel.unpack (.zero s)) := by
    rw [← hs]
    rfl
  refine isNaN_of_toModel (hmul.trans ?_)
  cases hnan : x.isNaN with
  | true => rw [(isNaN_iff x).mp hnan, UnpackedFloat.mul]
  | false =>
    obtain ⟨s', hs'⟩ := unpack_of_not_isFinite hx hnan
    rw [hs', UnpackedFloat.mul]

theorem not_beq_of_isNaN (h : x.isNaN = true) (y : Float) : ¬ (x == y) = true := by
  rw [beq_iff_compare, (isNaN_iff x).mp h]
  nofun

/-- A finite way that is gone for the fraction zero leads nowhere. -/
theorem value_lerp_zero {v : ℚ} (hx : value? x = some a) (hway : value? (y - x) = some v)
    (ht : value? t = some 0) : value? (x + (y - x) * t) = some a := by
  have hpart : value? ((y - x) * t) = some 0 := by
    have hmul := isNearest_mul hway ht
    rw [mul_zero] at hmul
    rw [hmul.value abs_rounded_zero_lt, rounded_zero]
  have hsum := isNearest_add hx hpart
  have hround : rounded a = a := (onGrid_of_value hx).rounded_eq
  have hlt : |rounded a| < limit := by
    rw [hround]
    exact abs_lt_limit hx
  rw [add_zero] at hsum
  rw [hsum.value hlt, hround]

/-- The near end of a way that has no length is lost. -/
theorem isNaN_lerp_zero (hway : (y - x).isFinite = false) (ht : (t == 0.0) = true) :
    (x + (y - x) * t).isNaN = true :=
  isNaN_add_right x (isNaN_mul_zero hway ((beq_iff_value value_zero).mp ht))

/-- The near end of a way is kept if and only if the way is finite. -/
theorem lerp_zero_beq_iff (hx : x.isFinite = true) (ht : (t == 0.0) = true) :
    (x + (y - x) * t == x) = true ↔ (y - x).isFinite = true := by
  constructor
  · intro hkept
    by_contra hway
    exact not_beq_of_isNaN (isNaN_lerp_zero (Bool.eq_false_iff.mpr hway) ht) x hkept
  · intro hway
    obtain ⟨a, ha⟩ := (isFinite_iff x).mp hx
    obtain ⟨v, hv⟩ := (isFinite_iff _).mp hway
    exact (beq_iff_value ha).mpr (value_lerp_zero ha hv ((beq_iff_value value_zero).mp ht))

end Milling.Binary64
