import Mathlib.Data.Int.Log
import Mathlib.Data.Rat.Floor
import Mathlib.Tactic.Linarith
import Mathlib.Tactic.NormNum
import Mathlib.Tactic.Positivity
/-!
Rounding of rational numbers to the grid of doubles.

A double is an integer below `2 ^ 53` in magnitude times a power of two, and the power is at least
`2 ^ (-1074)`. `rounded` takes a number to the nearest of these, a tie to the even mantissa, without
a bound on the exponent. It is monotone and leaves the numbers of the grid alone; every bound on a
computed double comes from these two facts.
-/

namespace Milling.Binary64

/-! ### Integers -/

/-- The integer nearest to `q`; of two that are equally near, the even one. -/
def nearestEven (q : ℚ) : ℤ :=
  if Int.fract q < 1 / 2 then ⌊q⌋
  else if 1 / 2 < Int.fract q then ⌊q⌋ + 1
  else ⌊q⌋ + ⌊q⌋ % 2

theorem nearestEven_intCast (n : ℤ) : nearestEven n = n := by
  simp [nearestEven]

theorem floor_le_nearestEven (q : ℚ) : ⌊q⌋ ≤ nearestEven q := by
  have hmod := Int.emod_nonneg ⌊q⌋ (by decide : (2 : ℤ) ≠ 0)
  unfold nearestEven
  split_ifs <;> omega

theorem nearestEven_le_floor_add_one (q : ℚ) : nearestEven q ≤ ⌊q⌋ + 1 := by
  have hmod := Int.emod_lt_of_pos ⌊q⌋ (by decide : (0 : ℤ) < 2)
  unfold nearestEven
  split_ifs <;> omega

/-- Rounding to integers keeps the order. -/
theorem nearestEven_mono {p q : ℚ} (h : p ≤ q) : nearestEven p ≤ nearestEven q := by
  rcases (Int.floor_mono h).lt_or_eq with hlt | heq
  · calc nearestEven p ≤ ⌊p⌋ + 1 := nearestEven_le_floor_add_one p
      _ ≤ ⌊q⌋ := hlt
      _ ≤ nearestEven q := floor_le_nearestEven q
  · -- Below the same integer the fractions decide, and each branch of `p` is at most that of `q`.
    have hfract : Int.fract p ≤ Int.fract q := by
      rw [Int.fract, Int.fract, heq]
      linarith
    have hmod := Int.emod_nonneg ⌊q⌋ (by decide : (2 : ℤ) ≠ 0)
    have hmod' := Int.emod_lt_of_pos ⌊q⌋ (by decide : (0 : ℤ) < 2)
    unfold nearestEven
    rw [heq]
    split_ifs <;> first | omega | linarith

theorem abs_sub_nearestEven_le (q : ℚ) : |q - nearestEven q| ≤ 1 / 2 := by
  have hfract := Int.fract_add_floor q
  have hlow := Int.fract_nonneg q
  have hhigh := Int.fract_lt_one q
  unfold nearestEven
  rw [abs_le]
  split_ifs with h₁ h₂
  · constructor <;> linarith
  · push_cast
    constructor <;> linarith
  · have hhalf : Int.fract q = 1 / 2 := le_antisymm (not_lt.mp h₂) (not_lt.mp h₁)
    rcases Int.emod_two_eq_zero_or_one ⌊q⌋ with hmod | hmod <;> rw [hmod] <;> push_cast <;>
      constructor <;> linarith

theorem nearestEven_neg (q : ℚ) : nearestEven (-q) = -nearestEven q := by
  by_cases hq : Int.fract q = 0
  · obtain ⟨n, rfl⟩ := Int.fract_eq_zero_iff.mp hq
    rw [← Int.cast_neg, nearestEven_intCast, nearestEven_intCast]
  · have hfract : Int.fract (-q) = 1 - Int.fract q := Int.fract_neg hq
    have hfloor : ⌊-q⌋ = -⌊q⌋ - 1 := by
      have hsum := Int.fract_add_floor q
      have hsum' := Int.fract_add_floor (-q)
      have hcast : (⌊-q⌋ : ℚ) = -⌊q⌋ - 1 := by linarith
      exact_mod_cast hcast
    unfold nearestEven
    rw [hfract, hfloor]
    split_ifs <;> first | omega | linarith

theorem nearestEven_nonneg {q : ℚ} (h : 0 ≤ q) : 0 ≤ nearestEven q := by
  rw [← nearestEven_intCast 0]
  exact nearestEven_mono (by exact_mod_cast h)

/-! ### The grid -/

/-- The exponent of the grid of doubles at a number. -/
def gridExponent (v : ℚ) : ℤ :=
  max (Int.log 2 |v| - 52) (-1074)

/-- The nearest number on the grid of doubles at `v`. -/
def rounded (v : ℚ) : ℚ :=
  nearestEven (v / 2 ^ gridExponent v) * 2 ^ gridExponent v

/-- A number that a double has as its value, whatever the bound on the exponent. -/
def OnGrid (v : ℚ) : Prop :=
  ∃ m e : ℤ, |m| < 2 ^ 53 ∧ -1074 ≤ e ∧ v = m * 2 ^ e

theorem two_zpow_pos (e : ℤ) : (0 : ℚ) < 2 ^ e :=
  zpow_pos two_pos e

theorem two_zpow_le {d e : ℤ} (h : d ≤ e) : (2 : ℚ) ^ d ≤ 2 ^ e :=
  zpow_le_zpow_right₀ one_le_two h

theorem rounded_zero : rounded 0 = 0 := by
  have h : nearestEven 0 = 0 := nearestEven_intCast 0
  simp [rounded, h]

theorem rounded_nonneg {v : ℚ} (h : 0 ≤ v) : 0 ≤ rounded v := by
  have hq : 0 ≤ nearestEven (v / 2 ^ gridExponent v) :=
    nearestEven_nonneg (div_nonneg h (two_zpow_pos _).le)
  have hq' : (0 : ℚ) ≤ nearestEven (v / 2 ^ gridExponent v) := by exact_mod_cast hq
  exact mul_nonneg hq' (two_zpow_pos _).le

/-- An integer multiple of the grid at `v` that lies above `v` still does after rounding. -/
theorem rounded_le_of_le_multiple {v : ℚ} {n : ℤ} (h : v ≤ n * 2 ^ gridExponent v) :
    rounded v ≤ n * 2 ^ gridExponent v := by
  have hq : nearestEven (v / 2 ^ gridExponent v) ≤ n := by
    rw [← nearestEven_intCast n]
    exact nearestEven_mono ((div_le_iff₀ (two_zpow_pos _)).mpr h)
  have hq' : (nearestEven (v / 2 ^ gridExponent v) : ℚ) ≤ n := by exact_mod_cast hq
  exact mul_le_mul_of_nonneg_right hq' (two_zpow_pos _).le

/-- Rounding does not take a number below a point of its grid that it has reached. -/
theorem le_rounded_of_multiple_le {v : ℚ} {n : ℤ} (h : n * 2 ^ gridExponent v ≤ v) :
    n * 2 ^ gridExponent v ≤ rounded v := by
  have hq : n ≤ nearestEven (v / 2 ^ gridExponent v) := by
    rw [← nearestEven_intCast n]
    exact nearestEven_mono ((le_div_iff₀ (two_zpow_pos _)).mpr h)
  have hq' : (n : ℚ) ≤ nearestEven (v / 2 ^ gridExponent v) := by exact_mod_cast hq
  exact mul_le_mul_of_nonneg_right hq' (two_zpow_pos _).le

/-- Half a step of the grid bounds the error. -/
theorem abs_sub_rounded_le (v : ℚ) : |v - rounded v| ≤ 2 ^ gridExponent v / 2 := by
  have hpos := two_zpow_pos (gridExponent v)
  have hsplit : v - rounded v =
      (v / 2 ^ gridExponent v - nearestEven (v / 2 ^ gridExponent v)) * 2 ^ gridExponent v := by
    rw [rounded, sub_mul, div_mul_cancel₀ _ hpos.ne']
  rw [hsplit, abs_mul, abs_of_pos hpos]
  calc |v / 2 ^ gridExponent v - nearestEven (v / 2 ^ gridExponent v)| * 2 ^ gridExponent v
      ≤ 1 / 2 * 2 ^ gridExponent v :=
        mul_le_mul_of_nonneg_right (abs_sub_nearestEven_le _) hpos.le
    _ = 2 ^ gridExponent v / 2 := by ring

/-- Where the grid is not the finest one, a number is at least the `2 ^ 52`-fold of a step. -/
theorem le_of_gridExponent_ne {v : ℚ} (hv : 0 < v) (h : gridExponent v ≠ -1074) :
    2 ^ 52 * 2 ^ gridExponent v ≤ v := by
  have hlog : gridExponent v = Int.log 2 v - 52 := by
    rw [gridExponent, abs_of_pos hv] at h ⊢
    omega
  calc (2 : ℚ) ^ 52 * 2 ^ gridExponent v = 2 ^ Int.log 2 v := by
        rw [hlog, ← zpow_natCast, ← zpow_add₀ two_ne_zero]
        congr 1
        omega
    _ ≤ v := by exact_mod_cast Int.zpow_log_le_self (by decide) hv

/-- A number has 53 binary digits at most down to its grid. -/
theorem lt_two_zpow_gridExponent {v : ℚ} (hv : 0 < v) : v < 2 ^ 53 * 2 ^ gridExponent v := by
  have hlog : Int.log 2 v + 1 ≤ 53 + gridExponent v := by
    rw [gridExponent, abs_of_pos hv]
    omega
  calc v < 2 ^ (Int.log 2 v + 1) := by exact_mod_cast Int.lt_zpow_succ_log_self (by decide) v
    _ ≤ 2 ^ (53 + gridExponent v) := two_zpow_le hlog
    _ = 2 ^ 53 * 2 ^ gridExponent v := by rw [zpow_add₀ two_ne_zero]; norm_cast

/-- The grid gets coarser with the magnitude. -/
theorem gridExponent_mono {u v : ℚ} (hu : 0 < u) (h : u ≤ v) :
    gridExponent u ≤ gridExponent v := by
  have hlog := Int.log_mono_right (b := 2) hu h
  rw [gridExponent, gridExponent, abs_of_pos hu, abs_of_pos (hu.trans_le h)]
  omega

/-- Rounding keeps the order above zero, also of two numbers with different grids. -/
theorem rounded_mono_of_nonneg {u v : ℚ} (hu : 0 ≤ u) (h : u ≤ v) : rounded u ≤ rounded v := by
  rcases hu.eq_or_lt with rfl | hu
  · rw [rounded_zero]
    exact rounded_nonneg h
  rcases (gridExponent_mono hu h).eq_or_lt with heq | hlt
  · have hq : nearestEven (u / 2 ^ gridExponent u) ≤ nearestEven (v / 2 ^ gridExponent v) := by
      rw [heq]
      exact nearestEven_mono (div_le_div_of_nonneg_right h (two_zpow_pos _).le)
    have hq' : (nearestEven (u / 2 ^ gridExponent u) : ℚ) ≤
        nearestEven (v / 2 ^ gridExponent v) := by exact_mod_cast hq
    rw [rounded, rounded, heq]
    rw [heq] at hq'
    exact mul_le_mul_of_nonneg_right hq' (two_zpow_pos _).le
  · -- The first number of the coarser grid separates the two, and both grids hold it.
    have hne : gridExponent v ≠ -1074 := by
      have hlow : -1074 ≤ gridExponent u := le_max_right _ _
      omega
    have hstep : (2 : ℚ) ^ 53 * 2 ^ gridExponent u ≤ 2 ^ 52 * 2 ^ gridExponent v := by
      have hexp : 53 + gridExponent u ≤ 52 + gridExponent v := by omega
      have hpow := two_zpow_le hexp
      rwa [zpow_add₀ two_ne_zero, zpow_add₀ two_ne_zero] at hpow
    have hlow : u ≤ ((2 ^ 53 : ℤ) : ℚ) * 2 ^ gridExponent u := by
      push_cast
      exact (lt_two_zpow_gridExponent hu).le
    have hhigh : ((2 ^ 52 : ℤ) : ℚ) * 2 ^ gridExponent v ≤ v := by
      push_cast
      exact le_of_gridExponent_ne (hu.trans_le h) hne
    have hlow' := rounded_le_of_le_multiple hlow
    have hhigh' := le_rounded_of_multiple_le hhigh
    push_cast at hlow' hhigh'
    exact hlow'.trans (hstep.trans hhigh')

theorem rounded_neg (v : ℚ) : rounded (-v) = -rounded v := by
  have hgrid : gridExponent (-v) = gridExponent v := by rw [gridExponent, gridExponent, abs_neg]
  rw [rounded, rounded, hgrid, neg_div, nearestEven_neg]
  push_cast
  ring

/-- Rounding is monotone. -/
theorem rounded_mono {u v : ℚ} (h : u ≤ v) : rounded u ≤ rounded v := by
  rcases le_total 0 u with hu | hu
  · exact rounded_mono_of_nonneg hu h
  rcases le_total 0 v with hv | hv
  · have hu' : 0 ≤ rounded (-u) := rounded_nonneg (neg_nonneg.mpr hu)
    rw [rounded_neg] at hu'
    linarith [rounded_nonneg hv]
  · have h' := rounded_mono_of_nonneg (neg_nonneg.mpr hv) (neg_le_neg h)
    rw [rounded_neg, rounded_neg] at h'
    linarith

/-! ### Numbers of the grid -/

theorem onGrid_zero : OnGrid 0 :=
  ⟨0, 0, by norm_num, by norm_num, by norm_num⟩

theorem OnGrid.neg {v : ℚ} (h : OnGrid v) : OnGrid (-v) := by
  obtain ⟨m, e, hm, he, rfl⟩ := h
  exact ⟨-m, e, by rwa [abs_neg], he, by push_cast; ring⟩

theorem OnGrid.abs {v : ℚ} (h : OnGrid v) : OnGrid |v| := by
  rcases abs_choice v with hv | hv
  · rwa [hv]
  · rw [hv]
    exact h.neg

theorem onGrid_two_zpow {e : ℤ} (h : -1074 ≤ e) : OnGrid (2 ^ e) :=
  ⟨1, e, by norm_num, h, by norm_num⟩

theorem onGrid_intCast {n : ℤ} (h : |n| < 2 ^ 53) : OnGrid n :=
  ⟨n, 0, h, by norm_num, by norm_num⟩

/-- Rounding leaves the numbers of the grid alone. -/
theorem OnGrid.rounded_eq {v : ℚ} (h : OnGrid v) : rounded v = v := by
  obtain ⟨m, e, hm, he, rfl⟩ := h
  rcases eq_or_ne m 0 with rfl | hne
  · simpa using rounded_zero
  set v : ℚ := m * 2 ^ e with hv
  have hmabs : (|m| : ℚ) < 2 ^ 53 := by exact_mod_cast hm
  have habs : |v| = |(m : ℚ)| * 2 ^ e := by rw [hv, abs_mul, abs_of_pos (two_zpow_pos e)]
  have hpos : 0 < |v| := by
    rw [habs]
    exact mul_pos (abs_pos.mpr (by exact_mod_cast hne)) (two_zpow_pos e)
  have hgrid : gridExponent v ≤ e := by
    have hlt : |v| < 2 ^ (53 + e) := by
      rw [habs, zpow_add₀ two_ne_zero]
      exact mul_lt_mul_of_pos_right (by exact_mod_cast hmabs) (two_zpow_pos e)
    have hlog : Int.log 2 |v| < 53 + e := (Int.lt_zpow_iff_log_lt (by decide) hpos).mp (by
      exact_mod_cast hlt)
    rw [gridExponent]
    omega
  obtain ⟨k, hk⟩ := Int.le.dest hgrid
  have hsplit : (2 : ℚ) ^ e = 2 ^ k * 2 ^ gridExponent v := by
    rw [← hk, zpow_add₀ two_ne_zero, zpow_natCast, mul_comm]
  have hquot : v / 2 ^ gridExponent v = ((m * 2 ^ k : ℤ) : ℚ) := by
    rw [div_eq_iff (two_zpow_pos _).ne']
    push_cast
    rw [mul_assoc, ← hsplit, hv]
  rw [rounded, hquot, nearestEven_intCast, ← hquot, div_mul_cancel₀ _ (two_zpow_pos _).ne']

/-- Rounding does not pass a double from below. -/
theorem OnGrid.rounded_le {v w : ℚ} (hw : OnGrid w) (h : v ≤ w) : rounded v ≤ w :=
  hw.rounded_eq ▸ rounded_mono h

theorem OnGrid.le_rounded {v w : ℚ} (hw : OnGrid w) (h : w ≤ v) : w ≤ rounded v :=
  hw.rounded_eq ▸ rounded_mono h

end Milling.Binary64
