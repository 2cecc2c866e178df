import Milling.Proofs.Binary64.Literal
/-!
The rational value of a decimal, and the double that it stands for.
-/

namespace Milling.Decimal

open Binary64

def toRat (d : Decimal) : ℚ :=
  d.digits * 10 ^ d.exponent

def IsNormal (d : Decimal) : Prop :=
  d.digits % 10 ≠ 0 ∨ d = ⟨0, 0⟩

theorem ten_zpow_pos (k : ℤ) : (0 : ℚ) < 10 ^ k :=
  zpow_pos (by norm_num) k

theorem toRat_nonneg (d : Decimal) : 0 ≤ d.toRat :=
  mul_nonneg (Nat.cast_nonneg _) (ten_zpow_pos _).le

/-! ### Zeros at the end -/

theorem toRat_trimmed (digits : Nat) (exponent : Int) :
    (trimmed digits exponent).toRat = digits * 10 ^ exponent := by
  fun_induction trimmed digits exponent with
  | case1 exponent => simp [toRat]
  | case2 digits exponent hne hzero ih =>
    rw [ih, zpow_add_one₀ (by norm_num)]
    have hten : (digits : ℚ) = (digits / 10 : ℕ) * 10 := by
      exact_mod_cast (Nat.div_mul_cancel (Nat.dvd_of_mod_eq_zero hzero)).symm
    rw [hten]
    ring
  | case3 digits exponent hne hzero => rfl

theorem isNormal_trimmed (digits : Nat) (exponent : Int) : (trimmed digits exponent).IsNormal := by
  fun_induction trimmed digits exponent with
  | case1 exponent => exact Or.inr rfl
  | case2 digits exponent hne hzero ih => exact ih
  | case3 digits exponent hne hzero => exact Or.inl hzero

theorem toRat_normal (d : Decimal) : d.normal.toRat = d.toRat :=
  toRat_trimmed _ _

theorem IsNormal.digits_pos {d : Decimal} (h : d.IsNormal) (hne : d.exponent ≠ 0) :
    0 < d.digits := by
  rcases h with h | rfl
  · omega
  · exact absurd rfl hne

/-! ### The nearest double -/

theorem limit_le_ten_pow : limit ≤ 10 ^ (311 : ℤ) := by
  have h : (2 : ℕ) ^ 1024 ≤ 10 ^ 311 := by decide +kernel
  have h' : (2 : ℚ) ^ (1024 : ℤ) ≤ 10 ^ (311 : ℤ) := by exact_mod_cast h
  exact h'

theorem ten_pow_lt : (10 : ℚ) ^ (-331 : ℤ) * 2 < 2 ^ (-1075 : ℤ) := by
  have h : (2 : ℕ) ^ 1076 < 10 ^ 331 := by decide +kernel
  have h' : (2 : ℚ) ^ (1076 : ℤ) < 10 ^ (331 : ℤ) := by exact_mod_cast h
  rw [zpow_neg, zpow_neg, inv_mul_lt_iff₀ (ten_zpow_pos _), ← div_eq_mul_inv,
    lt_div_iff₀ (two_zpow_pos _)]
  calc (2 : ℚ) * 2 ^ (1075 : ℤ) = 2 ^ (1076 : ℤ) := by
        rw [show (1076 : ℤ) = 1 + 1075 from rfl, zpow_add₀ two_ne_zero, zpow_one]
    _ < 10 ^ (331 : ℤ) := h'

/-- A decimal that is read as zero without raising its power of ten is indeed below half of the
least double. -/
theorem toRat_lt_of_small {d : Decimal} (h : d.exponent + d.digits.log2 < -330) :
    d.toRat < 2 ^ (-1075 : ℤ) := by
  have hdigits : (d.digits : ℚ) < 2 * 2 ^ (d.digits.log2 : ℤ) := by
    have hlog := Nat.lt_log2_self (n := d.digits)
    rw [pow_succ, mul_comm] at hlog
    exact_mod_cast hlog
  have hten : (2 : ℚ) ^ (d.digits.log2 : ℤ) ≤ 10 ^ (d.digits.log2 : ℤ) := by
    rw [zpow_natCast, zpow_natCast]
    exact pow_le_pow_left₀ (by norm_num) (by norm_num) _
  calc d.toRat < 2 * 2 ^ (d.digits.log2 : ℤ) * 10 ^ d.exponent :=
        mul_lt_mul_of_pos_right hdigits (ten_zpow_pos _)
    _ ≤ 2 * 10 ^ (d.digits.log2 : ℤ) * 10 ^ d.exponent :=
      mul_le_mul_of_nonneg_right (mul_le_mul_of_nonneg_left hten (by norm_num)) (ten_zpow_pos _).le
    _ = 10 ^ (d.exponent + d.digits.log2) * 2 := by rw [zpow_add₀ (by norm_num)]; ring
    _ ≤ 10 ^ (-331 : ℤ) * 2 := mul_le_mul_of_nonneg_right
        (zpow_le_zpow_right₀ (by norm_num) (by omega)) (by norm_num)
    _ < 2 ^ (-1075 : ℤ) := ten_pow_lt

/-- A decimal that is read as infinity without raising its power of ten is indeed out of range. -/
theorem limit_le_toRat {d : Decimal} (hd : 0 < d.digits) (h : 310 < d.exponent) :
    limit ≤ d.toRat := by
  have hone : (1 : ℚ) ≤ d.digits := by exact_mod_cast hd
  calc limit ≤ 10 ^ (311 : ℤ) := limit_le_ten_pow
    _ ≤ 10 ^ d.exponent := zpow_le_zpow_right₀ (by norm_num) h
    _ ≤ d.toRat := le_mul_of_one_le_left (ten_zpow_pos _).le hone

/-- The double of a decimal is the nearest to its value. -/
theorem isNearest_toFloat (d : Decimal) : IsNearest d.toFloat d.toRat := by
  have hnormal : d.normal.IsNormal := isNormal_trimmed _ _
  rw [← toRat_normal]
  unfold toFloat
  generalize d.normal = n at *
  dsimp only
  split
  · rename_i h
    exact isNearest_infinity (limit_le_toRat (hnormal.digits_pos (by omega)) h) unpack_infinity
  split
  · rename_i h
    rcases n.toRat_nonneg.eq_or_lt with hzero | hpos
    · rw [← hzero]
      exact isNearest_zero value_zero
    · exact isNearest_zero_of_small hpos (toRat_lt_of_small h) value_zero
  · have hexp : (if (decide (n.exponent < 0)) = true then -(n.exponent.natAbs : ℤ)
        else n.exponent.natAbs) = n.exponent := by
      by_cases hneg : n.exponent < 0
      · rw [if_pos (by simpa using hneg)]
        omega
      · rw [if_neg (by simpa using hneg)]
        omega
    have h := isNearest_ofScientific n.digits (n.exponent < 0) n.exponent.natAbs
    rwa [hexp] at h

end Milling.Decimal
