import Milling.Proofs.Binary64.Literal
import Milling.Proofs.Binary64.Order
import Milling.Proofs.Binary64.Sign
import Milling.Proofs.Binary64.Sum
/-!
Differences of coordinates and the directions they have.

Doubles of one value are the same or zeros of either sign (`eq_of_value`). The sign of a difference
is the order of its sides (`isMinus_sub`), and a direction lies within half a turn on either side
(`isAngle_direction`).
-/

namespace Milling.Binary64

open Float.Model
open Float.Model.UnpackedFloat (Sign)

variable {x y : Float} {a b : ℚ}

/-! ### Doubles and their values -/

theorem isMinus_of_value (hx : value? x = some a) (hne : a ≠ 0) : isMinus x = decide (a < 0) := by
  rcases unpack_of_value hx with ⟨s, -, rfl⟩ | ⟨s, m, e, hm, hu, rfl⟩
  · exact absurd rfl hne
  · have hpos := magnitude_pos hm e
    rw [isMinus_of_sign (s := s) (by rw [hu]; rfl)]
    cases s
    · exact (decide_eq_true (neg_neg_of_pos hpos)).symm
    · exact (decide_eq_false hpos.not_gt).symm

/-- There are two zeros, which only their signs tell apart. -/
theorem eq_of_value_zero (hx : value? x = some 0) : x = withSign (isMinus x) 0.0 := by
  obtain ⟨s, hu⟩ := unpack_of_value_zero hx
  rw [isMinus_of_sign (s := s) (by rw [hu]; rfl)]
  apply eq_of_unpack
  rw [hu]
  cases s
  · exact (unpack_zero ▸ unpack_neg 0.0).symm
  · exact unpack_zero.symm

/-- Doubles of one value and one sign are the same; the sign is told by the value unless it is
zero. -/
theorem eq_of_value (hx : value? x = some a) (hy : value? y = some a)
    (hzero : a = 0 → isMinus x = isMinus y) : x = y := by
  rcases eq_or_ne a 0 with rfl | hne
  · rw [eq_of_value_zero hx, eq_of_value_zero hy, hzero rfl]
  · rw [← withSign_abs (isNaN_of_value hx), ← withSign_abs (isNaN_of_value hy),
      isMinus_of_value hx hne, isMinus_of_value hy hne,
      eq_abs_of_value hx hne (value?_abs hy)]

theorem IsNearest.isNaN_eq (h : IsNearest x a) : x.isNaN = false := by
  unfold IsNearest at h
  split at h
  · exact isNaN_of_value h
  · unfold Float.isNaN Float.Model.isNaN
    rw [h]
    rfl

/-- Rounding keeps the sign of a number as long as it is not rounded to zero. -/
theorem IsNearest.isMinus_eq (h : IsNearest x a) (hne : rounded a ≠ 0) :
    isMinus x = decide (a < 0) := by
  have hsign : rounded a < 0 ↔ a < 0 := by
    constructor
    · intro hlt
      by_contra hle
      exact (rounded_nonneg (not_lt.mp hle)).not_gt hlt
    · intro hlt
      exact lt_of_le_of_ne (rounded_zero ▸ rounded_mono hlt.le) hne
  unfold IsNearest at h
  split at h
  · rw [isMinus_of_value h hne]
    exact decide_eq_decide.mpr hsign
  · rw [isMinus_of_sign (by rw [h]; rfl)]
    by_cases hlt : a < 0 <;> simp [hlt]

/-- A number within a power of two is not rounded out of it. -/
theorem IsNearest.value_of_abs_le (h : IsNearest x a) {k : ℤ} (hk : -1074 ≤ k) (hk' : k < 1024)
    (ha : |a| ≤ 2 ^ k) : value? x = some (rounded a) ∧ |rounded a| ≤ 2 ^ k := by
  have hgrid := onGrid_two_zpow hk
  have hle : |rounded a| ≤ 2 ^ k :=
    abs_le.mpr ⟨hgrid.neg.le_rounded (abs_le.mp ha).1, hgrid.rounded_le (abs_le.mp ha).2⟩
  exact ⟨h.value (hle.trans_lt (zpow_lt_zpow_right₀ one_lt_two hk')), hle⟩

/-! ### Differences -/

/-- What is neither finite nor NaN is an infinity. -/
theorem unpack_sub_infinity {s : Sign} (hx : x.isFinite = true)
    (hy : y.toModel.unpack = .infinity s) : (x - y).toModel.unpack = .infinity (-s) := by
  rw [sub_eq_add]
  exact unpack_add_infinity hx (by rw [unpack_neg, hy]; rfl)

theorem isNaN_sub (hx : x.isFinite = true) (hy : y.isNaN = false) : (x - y).isNaN = false := by
  cases hfin : y.isFinite with
  | true =>
    obtain ⟨a, ha⟩ := (isFinite_iff x).mp hx
    obtain ⟨b, hb⟩ := (isFinite_iff y).mp hfin
    exact (isNearest_sub ha hb).isNaN_eq
  | false =>
    obtain ⟨s, hs⟩ := unpack_of_not_isFinite hfin hy
    unfold Float.isNaN Float.Model.isNaN
    rw [unpack_sub_infinity hx hs]
    rfl

theorem unpack_sub_self (hx : value? x = some a) : (x - x).toModel.unpack = .zero .positive := by
  have hsub : (x - x).toModel =
      Float.Model.pack (UnpackedFloat.sub Format.binary64 x.toModel.unpack x.toModel.unpack) := rfl
  have hzero : UnpackedFloat.sub Format.binary64 x.toModel.unpack x.toModel.unpack =
      .zero .positive := by
    rcases unpack_of_value hx with ⟨s, hu, -⟩ | ⟨s, m, e, hm, hu, -⟩
    · rw [hu]
      cases s <;> rfl
    · rw [hu, UnpackedFloat.sub]
      simp only [sub_self]
      rfl
  rw [hsub, hzero, unpack_pack (u := .zero .positive) trivial trivial]

/-- A difference vanishes only for equal doubles. -/
theorem sub_beq_zero_iff (hx : value? x = some a) (hy : y.isNaN = false) :
    (x - y == 0.0) = true ↔ (y == x) = true := by
  rw [beq_iff_value value_zero, beq_iff_value hx]
  cases hfin : y.isFinite with
  | true =>
    obtain ⟨b, hb⟩ := (isFinite_iff y).mp hfin
    have hnear := isNearest_sub hx hb
    rw [hb, Option.some_inj]
    constructor
    · intro hzero
      by_contra hne
      have hround := (hnear.value_of_isFinite (isFinite_of_value hzero)).1
      rw [hzero, Option.some_inj] at hround
      exact rounded_sub_ne_zero (onGrid_of_value hx) (onGrid_of_value hb) (Ne.symm hne) hround.symm
    · rintro rfl
      rw [sub_self, IsNearest, rounded_zero, if_pos (by simpa using limit_pos)] at hnear
      exact hnear
  | false =>
    obtain ⟨s, hs⟩ := unpack_of_not_isFinite hfin hy
    have hsub := unpack_sub_infinity (isFinite_of_value hx) hs
    rw [value?, hsub, value?, hs]
    simp only [unpackedValue?, reduceCtorEq]

/-- The negative difference is the one from a greater double, unless both are zero. -/
theorem isMinus_sub (hx : value? x = some a) (hy : y.isNaN = false)
    (hne : ¬ (a = 0 ∧ value? y = some 0)) : isMinus (x - y) = decide (x < y) := by
  cases hfin : y.isFinite with
  | true =>
    obtain ⟨b, hb⟩ := (isFinite_iff y).mp hfin
    rcases eq_or_ne a b with rfl | hab
    · have hsame : y = x := eq_of_value hb hx fun hzero => absurd ⟨hzero, hzero ▸ hb⟩ hne
      rw [hsame, isMinus_of_sign (s := .positive) (by rw [unpack_sub_self hx]; rfl)]
      refine (decide_eq_false ?_).symm
      rw [lt_iff_of_value hx hx]
      exact lt_irrefl a
    · rw [(isNearest_sub hx hb).isMinus_eq
        (rounded_sub_ne_zero (onGrid_of_value hx) (onGrid_of_value hb) hab)]
      exact decide_eq_decide.mpr (by rw [lt_iff_of_value hx hb, sub_neg])
  | false =>
    obtain ⟨s, hs⟩ := unpack_of_not_isFinite hfin hy
    have hsub := unpack_sub_infinity (isFinite_of_value hx) hs
    rw [isMinus_of_sign (s := -s) (by rw [hsub]; rfl)]
    have hlt : x < y ↔ s = .positive := by
      rw [lt_iff_compare, hs]
      rcases unpack_of_value hx with ⟨t, hu, -⟩ | ⟨t, m, e, hm, hu, -⟩ <;> rw [hu] <;> cases s <;>
        simp [UnpackedFloat.compare]
    cases s
    · refine (decide_eq_false ?_).symm
      rw [hlt]
      intro h
      cases h
    · exact (decide_eq_true (hlt.mpr rfl)).symm

/-! ### Directions -/

def halfTurn : ℚ := 7074237752028440 * 2 ^ (-51 : ℤ)

theorem value_pi : value? pi = some halfTurn := by
  have h : hasValue pi 7074237752028440 2251799813685248 = true := by decide +kernel
  rw [value?_of_hasValue h (by decide), halfTurn]
  norm_num

theorem halfTurn_bounds : 201 / 64 ≤ halfTurn ∧ halfTurn ≤ 202 / 64 := by
  rw [halfTurn]
  norm_num

theorem onGrid_halfTurn : OnGrid halfTurn :=
  onGrid_of_value value_pi

/-- The values of directions: at most half a turn on either side. -/
def IsAngle (x : Float) : Prop :=
  ∃ v, value? x = some v ∧ |v| ≤ halfTurn

theorem halfTurn_pos : 0 < halfTurn :=
  lt_of_lt_of_le (by norm_num) halfTurn_bounds.1

theorem isAngle_pi : IsAngle pi :=
  ⟨halfTurn, value_pi, (abs_of_pos halfTurn_pos).le⟩

theorem IsAngle.neg (h : IsAngle x) : IsAngle (-x) := by
  obtain ⟨v, hv, hle⟩ := h
  exact ⟨-v, value_neg hv, by rwa [abs_neg]⟩

theorem isAngle_quarter : IsAngle (pi / 2.0) := by
  have h : hasValue (pi / 2.0) 7074237752028440 4503599627370496 = true := by decide +kernel
  refine ⟨_, value?_of_hasValue h (by decide), ?_⟩
  rw [halfTurn]
  norm_num [abs_of_pos]

/-- Whatever comes out of the arc tangent is limited to an angle. -/
theorem isAngle_limited (z : Float) : IsAngle (lesser (greater z (-pi)) pi) := by
  have hneg := value_neg value_pi
  have hfinite := isFinite_of_value value_pi
  have hnan := isNaN_of_value value_pi
  have hnan' := isNaN_of_value hneg
  by_cases hlow : -pi < z
  · rw [greater, if_pos (Or.inl hlow)]
    by_cases hhigh : z < pi
    · rw [lesser, if_pos (Or.inl hhigh)]
      obtain ⟨v, hv⟩ := (isFinite_iff z).mp
        (isFinite_of_le_of_le (isFinite_neg hfinite) hfinite (le_of_less hlow) (le_of_less hhigh))
      rw [lt_iff_of_value hneg hv] at hlow
      rw [lt_iff_of_value hv value_pi] at hhigh
      exact ⟨v, hv, abs_le.mpr ⟨hlow.le, hhigh.le⟩⟩
    · rw [lesser, hnan, if_neg (by simp [hhigh])]
      exact isAngle_pi
  · rw [greater, hnan', if_neg (by simp [hlow]), lesser_of_value hneg value_pi,
      if_pos (neg_lt_self halfTurn_pos)]
    exact isAngle_pi.neg

/-- Directions are angles, wherever the vector points. -/
theorem isAngle_direction (hx : x.isNaN = false) (hy : y.isNaN = false) :
    IsAngle (direction y x) := by
  unfold direction
  rw [hx, hy, Bool.or_self, if_neg Bool.false_ne_true]
  split_ifs with hzero
  · exact isAngle_pi.neg
  · exact isAngle_pi
  · exact ⟨0, (beq_iff_value value_zero).mp hzero, abs_zero.trans_le halfTurn_pos.le⟩
  · exact isAngle_quarter.neg
  · exact isAngle_quarter
  · exact isAngle_limited _

end Milling.Binary64
