import Mathlib.Tactic.FieldSimp
import Milling.Decimal.Basic
import Milling.Proofs.Binary64.Arithmetic
/-!
Doubles from natural numbers and from decimals.

Small literals go through two exact doubles and one operation, great ones through the mantissas, and
those far out of range through neither; the double is the nearest one in each case.
-/

namespace Milling.Binary64

open Float.Model
open Float.Model.UnpackedFloat (Sign)

/-! ### Exact values as quotients -/

theorem Exact.denominator_pos (e : Exact) : 0 < e.denominator := by
  unfold denominator
  split
  · exact one_pos
  · rw [Nat.one_shiftLeft]
    positivity

theorem Exact.magnitude_eq (e : Exact) :
    (e.mantissa : ℚ) * 2 ^ e.exponent = e.numerator / e.denominator := by
  unfold numerator denominator
  split
  · rename_i h
    obtain ⟨k, hk⟩ := Int.eq_ofNat_of_zero_le h
    rw [hk, Nat.shiftLeft_eq, Int.toNat_natCast, zpow_natCast]
    push_cast
    rw [div_one]
  · rename_i h
    obtain ⟨k, hk⟩ : ∃ k : ℕ, e.exponent = -k := ⟨e.exponent.natAbs, by omega⟩
    rw [hk, Int.natAbs_neg, Int.natAbs_natCast, Nat.one_shiftLeft, zpow_neg, zpow_natCast]
    push_cast
    rw [div_eq_mul_inv]

theorem value?_of_decode {x : Float} {e : Exact} (h : decode? x = some e)
    (hsign : e.negative = false) : value? x = some (e.numerator / e.denominator : ℚ) := by
  rw [value?_eq_decode?, h, Option.map_some, Exact.value, hsign, ← e.magnitude_eq]
  simp

/-- The double is the quotient of two natural numbers. -/
def hasValue (x : Float) (n d : Nat) : Bool :=
  (decode? x).any fun e => !e.negative && e.numerator * d == n * e.denominator

theorem value?_of_hasValue {x : Float} {n d : Nat} (h : hasValue x n d = true) (hd : 0 < d) :
    value? x = some (n / d : ℚ) := by
  obtain ⟨e, hdecode, he⟩ := (Option.any_eq_true _ _).mp h
  simp only [Bool.and_eq_true, Bool.not_eq_true', beq_iff_eq] at he
  have hd' : (d : ℚ) ≠ 0 := by exact_mod_cast hd.ne'
  have hden : (e.denominator : ℚ) ≠ 0 := by exact_mod_cast e.denominator_pos.ne'
  have hquot : (e.numerator : ℚ) * d = n * e.denominator := by exact_mod_cast he.2
  rw [value?_of_decode hdecode he.1, (div_eq_div_iff hden hd').mpr hquot]

theorem value?_of_natural {x : Float} {n : Nat} (h : hasValue x n 1 = true) :
    value? x = some (n : ℚ) := by
  rw [value?_of_hasValue h one_pos, Nat.cast_one, div_one]

theorem value_zero : value? 0.0 = some 0 :=
  value?_of_natural (by decide +kernel)

theorem value_one : value? 1.0 = some 1 := by
  have h : value? 1.0 = some ((1 : ℕ) : ℚ) := value?_of_natural (by decide +kernel)
  rwa [Nat.cast_one] at h

theorem value_two : value? 2.0 = some 2 :=
  value?_of_natural (by decide +kernel)

theorem value_four : value? 4.0 = some 4 :=
  value?_of_natural (by decide +kernel)

/-! ### Small literals -/

/-- The powers of ten in the table are exact. -/
theorem hasValue_powerOfTen : ∀ k : Fin Float.exactlyRepresentablePowersOfTen.size,
    hasValue Float.exactlyRepresentablePowersOfTen[k] (10 ^ k.val) 1 = true := by
  decide +kernel

theorem value?_powerOfTen {k : Nat} (hk : k < Float.exactlyRepresentablePowersOfTen.size) :
    value? Float.exactlyRepresentablePowersOfTen[k] = some (10 ^ k) := by
  refine (value?_of_hasValue (hasValue_powerOfTen ⟨k, hk⟩) one_pos).trans ?_
  push_cast
  rw [div_one]

theorem isNearest_ofUInt64 (n : UInt64) : IsNearest n.toFloat n.toNat := by
  have hmodel : n.toFloat.toModel = Float.Model.pack
      (UnpackedFloat.normalize Format.binary64 n.toNat 0 .positive) := rfl
  rcases Nat.eq_zero_or_pos n.toNat with hzero | hpos
  · rw [hzero] at hmodel ⊢
    exact isNearest_zero (value?_pack_zero hmodel)
  · have hnorm : UnpackedFloat.normalize Format.binary64 n.toNat 0 .positive =
        UnpackedFloat.round Format.binary64 .positive n.toNat 0 := by
      have hcmp : compare (n.toNat : ℤ) 0 = .gt := compare_gt_iff_gt.mpr (by exact_mod_cast hpos)
      unfold UnpackedFloat.normalize
      rw [hcmp]
      rfl
    rw [hnorm] at hmodel
    have hround := isRounding_round (s := .positive) (e := 0) hpos
    rw [zpow_zero, mul_one] at hround
    exact isNearest_pack_positive (by exact_mod_cast hpos) hround hmodel

/-- Small natural numbers are doubles. -/
theorem IsNearest.value_natCast {x : Float} {n : Nat} (hx : IsNearest x n) (h : n < 2 ^ 53) :
    value? x = some (n : ℚ) := by
  have hgrid : rounded (n : ℚ) = n := by
    have hgrid : OnGrid ((n : ℤ) : ℚ) := onGrid_intCast (by rw [abs_of_nonneg] <;> omega)
    exact_mod_cast hgrid.rounded_eq
  have hrange : |rounded (n : ℚ)| < limit := by
    rw [hgrid, abs_of_nonneg (by positivity)]
    calc (n : ℚ) < 2 ^ (53 : ℤ) := by exact_mod_cast h
      _ ≤ limit := two_zpow_le (by omega)
  rw [hx.value hrange, hgrid]

theorem value?_ofUInt64_of_lt {n : Nat} (h : n < 2 ^ 53) :
    value? n.toUInt64.toFloat = some (n : ℚ) := by
  have hnat : n.toUInt64.toNat = n := UInt64.toNat_ofNat_of_lt' (by
    rw [UInt64.size]
    omega)
  have hnear := isNearest_ofUInt64 n.toUInt64
  rw [hnat] at hnear
  exact hnear.value_natCast h

/-! ### Numbers out of range -/

/-- Below half of the least double everything is rounded to zero. -/
theorem rounded_of_small {v : ℚ} (hv : 0 < v) (h : v < 2 ^ (-1075 : ℤ)) : rounded v = 0 := by
  have hlog : Int.log 2 v < -1075 := (Int.lt_zpow_iff_log_lt (by decide) hv).mp (by exact_mod_cast h)
  have hgrid : gridExponent v = -1074 := by
    rw [gridExponent, abs_of_pos hv]
    omega
  have hquot : v / 2 ^ (-1074 : ℤ) < 1 / 2 := by
    rw [div_lt_iff₀ (two_zpow_pos _)]
    calc v < 2 ^ (-1075 : ℤ) := h
      _ = 1 / 2 * 2 ^ (-1074 : ℤ) := by
        rw [show (-1074 : ℤ) = 1 + -1075 from rfl, zpow_add₀ two_ne_zero]
        ring
  have hfloor : ⌊v / 2 ^ (-1074 : ℤ)⌋ = 0 := by
    rw [Int.floor_eq_zero_iff]
    exact ⟨div_nonneg hv.le (two_zpow_pos _).le, by linarith⟩
  have hnear : nearestEven (v / 2 ^ (-1074 : ℤ)) = 0 := by
    unfold nearestEven
    rw [Int.fract, hfloor, if_pos (by simpa using hquot)]
  rw [rounded, hgrid, hnear]
  simp

theorem limit_le_rounded {v : ℚ} (h : limit ≤ v) : limit ≤ rounded v :=
  (onGrid_two_zpow (by decide)).le_rounded h

theorem isNearest_infinity {x : Float} {v : ℚ} (h : limit ≤ v)
    (hx : x.toModel.unpack = .infinity .positive) : IsNearest x v := by
  have hv : 0 < v := limit_pos.trans_le h
  unfold IsNearest
  rw [abs_of_nonneg (rounded_nonneg hv.le), if_neg (limit_le_rounded h).not_gt,
    if_neg hv.le.not_gt, hx]

theorem isNearest_zero_of_small {x : Float} {v : ℚ} (hv : 0 < v) (h : v < 2 ^ (-1075 : ℤ))
    (hx : value? x = some 0) : IsNearest x v := by
  have hzero := rounded_of_small hv h
  rw [IsNearest, hzero, if_pos (by simpa using limit_pos), hx]

/-! ### All literals -/

theorem ofScientific_eq (m : Nat) (e : Int) :
    (Float.ofModel (Float.Model.ofScientific m e)).toModel =
      Float.Model.pack (UnpackedFloat.ofScientific Format.binary64 m e) := rfl

/-- A power of ten that is far too large takes a number out of range whatever its digits. -/
theorem limit_le_of_power {m : Nat} {e : Int} (hm : 0 < m) (he : 2048 < e) :
    limit ≤ m * 10 ^ e := by
  obtain ⟨k, rfl⟩ := Int.eq_ofNat_of_zero_le (show 0 ≤ e by omega)
  have hm' : (1 : ℚ) ≤ m := by exact_mod_cast hm
  calc limit ≤ 2 ^ (k : ℤ) := two_zpow_le (by omega)
    _ = 2 ^ k := zpow_natCast 2 k
    _ ≤ 10 ^ k := pow_le_pow_left₀ (by norm_num) (by norm_num) k
    _ ≤ m * 10 ^ (k : ℤ) := by
      rw [zpow_natCast]
      exact le_mul_of_one_le_left (by positivity) hm'

/-- A power of ten that is small enough for its digits leaves a number below half of the least
double. -/
theorem small_of_power {m : Nat} {e : Int} (he : e < -(2048 + m.log2)) :
    (m : ℚ) * 10 ^ e < 2 ^ (-1075 : ℤ) := by
  obtain ⟨k, hk⟩ : ∃ k : ℕ, e = -k := ⟨e.natAbs, by omega⟩
  have hm : (m : ℚ) < 2 ^ (m.log2 + 1 : ℤ) := by
    exact_mod_cast Nat.lt_log2_self (n := m)
  have hten : (10 : ℚ) ^ e ≤ 2 ^ e := by
    rw [hk, zpow_neg, zpow_neg, zpow_natCast, zpow_natCast]
    exact inv_anti₀ (by positivity) (pow_le_pow_left₀ (by norm_num) (by norm_num) k)
  calc (m : ℚ) * 10 ^ e ≤ m * 2 ^ e := mul_le_mul_of_nonneg_left hten (by positivity)
    _ < 2 ^ (m.log2 + 1 : ℤ) * 2 ^ e := mul_lt_mul_of_pos_right hm (two_zpow_pos e)
    _ = 2 ^ (m.log2 + 1 + e : ℤ) := (zpow_add₀ two_ne_zero _ _).symm
    _ ≤ 2 ^ (-1075 : ℤ) := two_zpow_le (by omega)

/-- Digits times a power of ten are rounded once. -/
theorem isRounding_mul_power {m : Nat} (hm : 0 < m) (k : Nat) (h₁ : 0 < m <<< 53)
    (h₂ : 0 < 10 ^ k) :
    IsRounding .positive (m * 10 ^ (k : ℤ)) (UnpackedFloat.mul Format.binary64
      (.finite .positive (m <<< 53) (-53) h₁) (.finite .positive (10 ^ k) 0 h₂)) := by
  have hwide : 2 ^ 52 ≤ m <<< 53 * 10 ^ k := by
    have hprod : 1 ≤ m * 10 ^ k := Nat.mul_pos hm h₂
    rw [Nat.shiftLeft_eq, Nat.mul_right_comm]
    omega
  have hval : ((m <<< 53 : ℕ) : ℚ) * 2 ^ (-53 : ℤ) * ((10 ^ k : ℕ) * 2 ^ (0 : ℤ)) =
      m * 10 ^ (k : ℤ) := by
    rw [Nat.shiftLeft_eq, zpow_natCast, zpow_zero, zpow_neg]
    push_cast
    field_simp
  rw [← hval]
  exact isRounding_mul h₁ h₂ (Or.inl hwide)

theorem isRounding_div_power {m : Nat} (hm : 0 < m) (k : Nat) (h : 0 < 10 ^ k) :
    IsRounding .positive (m * 10 ^ (-k : ℤ)) (UnpackedFloat.div Format.binary64
      (.finite .positive m 0 hm) (.finite .positive (10 ^ k) 0 h)) := by
  have hval : (m : ℚ) * 2 ^ (0 : ℤ) / ((10 ^ k : ℕ) * 2 ^ (0 : ℤ)) = m * 10 ^ (-k : ℤ) := by
    rw [zpow_zero, zpow_neg, zpow_natCast]
    push_cast
    rw [mul_one, mul_one, div_eq_mul_inv]
  rw [← hval]
  exact isRounding_div hm h

/-- The way through the mantissas. -/
theorem isNearest_ofModel (m : Nat) (e : Int) :
    IsNearest (Float.ofModel (Float.Model.ofScientific m e)) (m * 10 ^ e) := by
  have hmodel := ofScientific_eq m e
  rcases Nat.eq_zero_or_pos m with rfl | hm
  · rw [Nat.cast_zero, zero_mul]
    exact isNearest_zero (value?_pack_zero (s := .positive) hmodel)
  have hpos : (0 : ℚ) < m * 10 ^ e := mul_pos (by exact_mod_cast hm) (zpow_pos (by norm_num) e)
  unfold UnpackedFloat.ofScientific at hmodel
  rw [dif_neg hm.ne'] at hmodel
  split at hmodel
  · rename_i he
    refine isNearest_infinity (limit_le_of_power hm ?_) ?_
    · simpa using he
    · rw [hmodel, unpack_pack (u := .infinity .positive) trivial trivial]
  split at hmodel
  · rename_i he
    refine isNearest_zero_of_small hpos (small_of_power ?_) (value?_pack_zero hmodel)
    simpa using he
  split at hmodel
  · rename_i he
    obtain ⟨k, rfl⟩ := Int.eq_ofNat_of_zero_le he
    have hbits : Format.binary64.mantissaBits = 53 := rfl
    simp only [hbits, Int.toNat_natCast, Nat.cast_ofNat] at hmodel
    have hleft : 0 < m <<< 53 := by
      rw [Nat.shiftLeft_eq]
      positivity
    have hround := isRounding_mul_power hm k hleft (by positivity)
    exact isNearest_pack_positive hpos hround hmodel
  · rename_i he
    obtain ⟨k, rfl⟩ : ∃ k : ℕ, e = -k := ⟨e.natAbs, by omega⟩
    simp only [neg_neg, Int.toNat_natCast] at hmodel
    exact isNearest_pack_positive hpos (isRounding_div_power hm k _) hmodel

/-- A literal is the double nearest to its number. -/
theorem isNearest_ofScientific (m : Nat) (negative : Bool) (e : Nat) :
    IsNearest (Float.ofScientific m negative e) (m * 10 ^ (if negative then -e else e : ℤ)) := by
  unfold Float.ofScientific
  split
  · rename_i h
    have hm := value?_ofUInt64_of_lt h.1
    have hsize : Float.exactlyRepresentablePowersOfTen.size = 23 := rfl
    have hk := value?_powerOfTen (show e < _ by omega)
    have hten : (10 : ℚ) ^ e ≠ 0 := by positivity
    cases negative
    · have hmul := isNearest_mul hm hk
      rwa [← zpow_natCast] at hmul
    · have hdiv := isNearest_div hm hk hten
      rwa [div_eq_mul_inv, ← zpow_natCast, ← zpow_neg] at hdiv
  · cases negative
    · exact isNearest_ofModel m e
    · have hneg : Int.negOfNat e = -e := by cases e <;> rfl
      simp only [if_true]
      rw [hneg]
      exact isNearest_ofModel m (-e)

/-- Natural numbers are rounded to the nearest double. -/
theorem isNearest_ofNat (n : Nat) : IsNearest (Float.ofNat n) n := by
  have h := isNearest_ofScientific n false 0
  rwa [if_neg (by decide), Nat.cast_zero, zpow_zero, mul_one] at h

end Milling.Binary64
