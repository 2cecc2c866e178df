import Mathlib.Order.Interval.Set.UnorderedInterval
import Milling.Proofs.Binary64.Interpolation
import Milling.Proofs.Binary64.Literal
/-!
Fractions, and the integers that are taken from doubles.

A quotient that is limited to the numbers from 0 to 1 is a number in this range, exactly 0 or 1 at
and beyond its ends, even if it overflows (`exists_limited`). Only where both sides of the quotient
are infinite it is no number (`isNaN_div_infinity`), and so is all that is computed from it.
-/

namespace Milling.Binary64

open Float.Model
open Float.Model.UnpackedFloat (Sign)

variable {x y : Float} {a b v : ℚ}

/-! ### Integers from doubles -/

theorem Exact.value_eq (e : Exact) :
    e.value = (if e.negative then -1 else 1) * (e.numerator / e.denominator) := by
  rw [value, mul_assoc, e.magnitude_eq]

theorem Exact.quotient_nonneg (e : Exact) : (0 : ℚ) ≤ e.numerator / e.denominator := by
  positivity

/-- The nearest natural number is the floor of the magnitude and a half. -/
theorem Exact.nearestMagnitude_eq (e : Exact) :
    e.nearestMagnitude = ⌊(e.numerator / e.denominator + 1 / 2 : ℚ)⌋₊ := by
  have hden : (e.denominator : ℚ) ≠ 0 := by exact_mod_cast e.denominator_pos.ne'
  have hquot : (e.numerator / e.denominator + 1 / 2 : ℚ) =
      (2 * e.numerator + e.denominator : ℕ) / (2 * e.denominator : ℕ) := by
    push_cast
    field_simp
  rw [hquot, Nat.floor_div_eq_div]
  rfl

/-- The floor is that of the value, and 0 below zero. -/
theorem floorNat_of_value (h : value? x = some v) : floorNat x = ⌊v⌋₊ := by
  rw [value?_eq_decode?] at h
  obtain ⟨e, he, rfl⟩ := Option.map_eq_some_iff.mp h
  rw [floorNat, he, e.value_eq]
  dsimp only
  split
  · rw [neg_one_mul, Nat.floor_of_nonpos (neg_nonpos.mpr e.quotient_nonneg)]
  · rw [one_mul, Nat.floor_div_eq_div]
    rfl

theorem nearestNat_of_value (h : value? x = some v) : nearestNat x = ⌊v + 1 / 2⌋₊ := by
  rw [value?_eq_decode?] at h
  obtain ⟨e, he, rfl⟩ := Option.map_eq_some_iff.mp h
  rw [nearestNat, he, e.value_eq]
  dsimp only
  split
  · have hlt : -(e.numerator / e.denominator : ℚ) + 1 / 2 < 1 := by
      linarith [e.quotient_nonneg]
    rw [neg_one_mul, Nat.floor_eq_zero.mpr hlt]
  · rw [one_mul, e.nearestMagnitude_eq]

/-- The nearest integer does not leave a range whose ends are integers. -/
theorem floor_mem_uIcc {m n : ℕ} (h : v ∈ Set.uIcc (m : ℚ) n) :
    ⌊v + 1 / 2⌋₊ ∈ Set.uIcc m n := by
  rw [Set.mem_uIcc] at h ⊢
  have hfloor : ∀ {k l : ℕ}, (k : ℚ) ≤ v → v ≤ l → k ≤ ⌊v + 1 / 2⌋₊ ∧ ⌊v + 1 / 2⌋₊ ≤ l := by
    intro k l hk hl
    have hnonneg : 0 ≤ v + 1 / 2 := by linarith [(Nat.cast_nonneg k : (0 : ℚ) ≤ k)]
    have hlt : v + 1 / 2 < (l + 1 : ℕ) := by
      push_cast
      linarith
    exact ⟨Nat.le_floor (by linarith), Nat.le_of_lt_succ ((Nat.floor_lt hnonneg).mpr hlt)⟩
  exact h.imp (fun ⟨hm, hn⟩ => hfloor hm hn) (fun ⟨hn, hm⟩ => hfloor hn hm)

theorem decode?_of_isNaN (h : x.isNaN = true) : decode? x = none := by
  rw [decode?, (isNaN_iff x).mp h]

theorem floorNat_of_isNaN (h : x.isNaN = true) : floorNat x = 0 := by
  rw [floorNat, decode?_of_isNaN h]

theorem nearestNat_of_isNaN (h : x.isNaN = true) : nearestNat x = 0 := by
  rw [nearestNat, decode?_of_isNaN h]

/-- Rounding does not leave a range whose ends are doubles. -/
theorem rounded_mem_uIcc (ha : OnGrid a) (hb : OnGrid b) (h : v ∈ Set.uIcc a b) :
    rounded v ∈ Set.uIcc a b := by
  rw [Set.mem_uIcc] at h ⊢
  rcases h with ⟨hlow, hhigh⟩ | ⟨hlow, hhigh⟩
  · exact .inl ⟨ha.le_rounded hlow, hb.rounded_le hhigh⟩
  · exact .inr ⟨hb.le_rounded hlow, ha.rounded_le hhigh⟩

theorem abs_le_of_mem_uIcc {c : ℚ} (h : v ∈ Set.uIcc a b) (ha : |a| ≤ c) (hb : |b| ≤ c) :
    |v| ≤ c := by
  rcases Set.mem_uIcc.mp h with ⟨hlow, hhigh⟩ | ⟨hlow, hhigh⟩
  · exact (abs_le_max_abs_abs hlow hhigh).trans (max_le ha hb)
  · exact (abs_le_max_abs_abs hlow hhigh).trans (max_le hb ha)

/-! ### What is no number -/

theorem toModel_mul (x y : Float) : (x * y).toModel =
    Float.Model.pack (UnpackedFloat.mul Format.binary64 x.toModel.unpack y.toModel.unpack) := rfl

theorem toModel_div (x y : Float) : (x / y).toModel =
    Float.Model.pack (UnpackedFloat.div Format.binary64 x.toModel.unpack y.toModel.unpack) := rfl

theorem isNaN_mul_left (h : x.isNaN = true) (y : Float) : (x * y).isNaN = true := by
  refine isNaN_of_toModel ?_
  rw [toModel_mul, (isNaN_iff x).mp h]
  cases y.toModel.unpack <;> rfl

theorem isNaN_mul_right (x : Float) (h : y.isNaN = true) : (x * y).isNaN = true := by
  refine isNaN_of_toModel ?_
  rw [toModel_mul, (isNaN_iff y).mp h]
  cases x.toModel.unpack <;> rfl

theorem isNaN_sub_left (h : x.isNaN = true) (y : Float) : (x - y).isNaN = true := by
  rw [sub_eq_add]
  refine isNaN_of_toModel ?_
  rw [toModel_add, (isNaN_iff x).mp h]
  cases (-y).toModel.unpack <;> rfl

/-- An infinity divided by an infinity is no number. -/
theorem isNaN_div_infinity {s t : Sign} (hx : x.toModel.unpack = .infinity s)
    (hy : y.toModel.unpack = .infinity t) : (x / y).isNaN = true := by
  refine isNaN_of_toModel ?_
  rw [toModel_div, hx, hy]
  rfl

/-- There is no limit to what is no number. -/
theorem clamp_of_isNaN (h : x.isNaN = true) (low high : Float) : clamp x low high = x := by
  have hlow : ¬ x < low := by
    intro hlt
    rw [(isNaN_of_le (le_of_less hlt)).1] at h
    cases h
  have hhigh : ¬ high < x := by
    intro hlt
    rw [(isNaN_of_le (le_of_less hlt)).2] at h
    cases h
  rw [clamp, if_neg hlow, if_neg hhigh]

/-! ### Quotients -/

theorem value?_div_infinity {s : Sign} (hx : value? x = some a)
    (hy : y.toModel.unpack = .infinity s) : value? (x / y) = some 0 := by
  have hdiv := toModel_div x y
  rw [hy] at hdiv
  rcases unpack_of_value hx with ⟨t, hu, -⟩ | ⟨t, m, e, hm, hu, -⟩
  · rw [hu] at hdiv
    exact value?_pack_zero hdiv
  · rw [hu] at hdiv
    exact value?_pack_zero hdiv

theorem unpack_div_of_infinity {s : Sign} (hx : x.toModel.unpack = .infinity s)
    (hy : value? y = some b) (hb : 0 < b) : (x / y).toModel.unpack = .infinity s := by
  rcases unpack_of_value hy with ⟨t, -, rfl⟩ | ⟨t, m, e, hm, hu, rfl⟩
  · exact absurd hb (lt_irrefl 0)
  · have hpositive : t = .positive := by
      cases t with
      | positive => rfl
      | negative => exact absurd hb (neg_neg_of_pos (magnitude_pos hm e)).not_gt
    have hdiv : UnpackedFloat.div Format.binary64 (.infinity s) (.finite .positive m e hm) =
        .infinity s := by
      cases s <;> rfl
    rw [toModel_div, hx, hu, hpositive, hdiv, unpack_pack (u := .infinity s) trivial trivial]

/-- A number from 0 to 1 that is 0 or 1 where another is not between these. -/
structure Limited (d v : ℚ) : Prop where
  nonneg : 0 ≤ d
  le_one : d ≤ 1
  eq_zero : v ≤ 0 → d = 0
  eq_one : 1 ≤ v → d = 1

/-- Limiting a rounded number to the range from 0 to 1 keeps it, or puts it on the end that it is
beyond. -/
theorem limited_of_value (h : value? x = some (rounded v)) :
    ∃ d, value? (clamp x 0.0 1.0) = some d ∧ Limited d v := by
  have hone : OnGrid 1 := onGrid_two_zpow (e := 0) (by decide)
  have hlow : v ≤ 0 → rounded v ≤ 0 := onGrid_zero.rounded_le
  have hhigh : 1 ≤ v → 1 ≤ rounded v := hone.le_rounded
  unfold clamp
  split
  · rename_i hlt
    rw [lt_iff_of_value h value_zero] at hlt
    refine ⟨0, value_zero, le_rfl, zero_le_one, fun _ => rfl, fun hv => ?_⟩
    linarith [hhigh hv]
  split
  · rename_i hlt
    rw [lt_iff_of_value value_one h] at hlt
    refine ⟨1, value_one, zero_le_one, le_rfl, fun hv => ?_, fun _ => rfl⟩
    linarith [hlow hv]
  · rename_i hnonneg hle
    rw [lt_iff_of_value h value_zero, not_lt] at hnonneg
    rw [lt_iff_of_value value_one h, not_lt] at hle
    exact ⟨_, h, hnonneg, hle, fun hv => le_antisymm (hlow hv) hnonneg,
      fun hv => le_antisymm hle (hhigh hv)⟩

/-- Limits leave a number from 0 to 1, whether the double that is nearest to `v` is finite or
not. -/
theorem exists_limited (h : IsNearest x v) :
    ∃ d, value? (clamp x 0.0 1.0) = some d ∧ Limited d v := by
  by_cases hrange : |rounded v| < limit
  · exact limited_of_value (h.value hrange)
  rw [IsNearest, if_neg hrange] at h
  split at h
  · rename_i hv
    have hlt : x < 0.0 := neg_infinity_lt h (isFinite_of_value value_zero)
    rw [clamp, if_pos hlt]
    refine ⟨0, value_zero, le_rfl, zero_le_one, fun _ => rfl, fun hone => ?_⟩
    linarith
  · rename_i hv
    have hnot : ¬ x < 0.0 := by
      rw [not_lt_zero_iff, h]
      trivial
    rw [clamp, if_neg hnot, if_pos (lt_infinity (isFinite_of_value value_one) h)]
    refine ⟨1, value_one, zero_le_one, le_rfl, fun hzero => ?_, fun _ => rfl⟩
    -- Zero is in range.
    rw [le_antisymm hzero (not_lt.mp hv)] at hrange
    exact absurd abs_rounded_zero_lt hrange

/-- An infinity is the double nearest to the first number that is out of range on its side. -/
theorem isNearest_of_infinity {s : Sign} (hx : x.toModel.unpack = .infinity s) :
    IsNearest x (signed s limit) := by
  have hgrid : rounded limit = limit := (onGrid_two_zpow (by decide)).rounded_eq
  unfold IsNearest
  rw [rounded_signed, abs_signed, hgrid, abs_of_pos limit_pos, if_neg (lt_irrefl limit), hx]
  cases s with
  | negative => exact congrArg _ (if_pos (neg_neg_of_pos limit_pos)).symm
  | positive => exact congrArg _ (if_neg limit_pos.not_gt).symm

/-- A double is not above zero exactly if that holds of the rounded number, in range or not. -/
theorem IsNearest.le_zero_iff (h : IsNearest x v) : x ≤ 0.0 ↔ rounded v ≤ 0 := by
  by_cases hrange : |rounded v| < limit
  · exact le_iff_of_value (h.value hrange) value_zero
  rw [IsNearest, if_neg hrange] at h
  split at h
  · rename_i hv
    exact iff_of_true ((neg_infinity_le_iff h).mpr (isNaN_of_value value_zero))
      (onGrid_zero.rounded_le hv.le)
  · rename_i hv
    have hnonneg := rounded_nonneg (not_lt.mp hv)
    refine iff_of_false ?_ fun hle => ?_
    · rw [infinity_le_iff h, unpack_zero]
      intro hzero
      cases hzero
    · rw [le_antisymm hle hnonneg, abs_zero] at hrange
      exact hrange limit_pos

/-- The quotient by a positive double is beyond 0 or 1 wherever its exact sides are. -/
theorem isNearest_quotient (hx : IsNearest x a) (hy : value? y = some (rounded b))
    (hb : 0 < rounded b) : ∃ v, IsNearest (x / y) v ∧ (a ≤ 0 → v ≤ 0) ∧ (b ≤ a → 1 ≤ v) := by
  by_cases hrange : |rounded a| < limit
  · refine ⟨_, isNearest_div (hx.value hrange) hy hb.ne', fun ha => ?_, fun hle => ?_⟩
    · exact div_nonpos_of_nonpos_of_nonneg (onGrid_zero.rounded_le ha) hb.le
    · rw [le_div_iff₀ hb, one_mul]
      exact rounded_mono hle
  rw [IsNearest, if_neg hrange] at hx
  have hquot := isNearest_of_infinity (unpack_div_of_infinity hx hy hb)
  split at hquot
  · rename_i ha
    refine ⟨-limit, hquot, fun _ => neg_nonpos.mpr limit_pos.le, fun hle => ?_⟩
    linarith [rounded_mono hle, onGrid_zero.rounded_le ha.le]
  · rename_i ha
    refine ⟨limit, hquot, fun hzero => ?_, fun _ => one_le_zpow₀ one_le_two (by decide)⟩
    rw [le_antisymm hzero (not_lt.mp ha)] at hrange
    exact absurd abs_rounded_zero_lt hrange

end Milling.Binary64
