import Milling.Proofs.Binary64.Value
/-!
Rounding an unpacked mantissa.

The operations compute a mantissa, an exponent and how much is missing (`Describes`), shift the
mantissa to the exponent of the grid and round it there. `isRounding_roundWithAccuracy` says that
this is `rounded`.
-/

namespace Milling.Binary64

open Float.Model
open Float.Model.UnpackedFloat (Sign Accuracy ExtendedMantissa)

/-! ### Mantissas with what is missing -/

/-- The number that a mantissa approximates from below, and where it lies before the next one. -/
def Describes (m : Nat) : Accuracy → ℚ → Prop
  | .exact, q => q = m
  | .inexact .lt, q => (m : ℚ) < q ∧ q < m + 1 / 2
  | .inexact .eq, q => q = m + 1 / 2
  | .inexact .gt, q => (m : ℚ) + 1 / 2 < q ∧ q < m + 1

theorem Describes.bounds {m : Nat} {a : Accuracy} {q : ℚ} (h : Describes m a q) :
    (m : ℚ) ≤ q ∧ q < m + 1 := by
  cases a with
  | exact =>
    obtain rfl : q = m := h
    exact ⟨le_refl _, by linarith⟩
  | inexact o =>
    cases o <;> simp only [Describes] at h
    · exact ⟨h.1.le, by linarith [h.2]⟩
    · exact ⟨by linarith, by linarith⟩
    · exact ⟨by linarith [h.1], h.2⟩

/-- The mantissa is the integer part of the number that it approximates. -/
theorem Describes.floor_eq {m : Nat} {a : Accuracy} {q : ℚ} (h : Describes m a q) :
    ⌊q⌋ = (m : ℤ) := by
  rw [Int.floor_eq_iff]
  exact_mod_cast h.bounds

/-- What is known beside the mantissa is enough to round to the nearest, ties to even. -/
theorem Describes.roundToNearestEven {m : Nat} {a : Accuracy} {q : ℚ} (h : Describes m a q) :
    (a.roundToNearestEven m : ℤ) = nearestEven q := by
  have hfract : Int.fract q = q - m := by
    rw [Int.fract, h.floor_eq]
    norm_cast
  unfold nearestEven
  rw [hfract, h.floor_eq]
  cases a with
  | exact =>
    obtain rfl : q = m := h
    rw [if_pos (by norm_num)]
    rfl
  | inexact o =>
    cases o <;> simp only [Describes] at h
    · rw [if_pos (by linarith [h.2])]
      rfl
    · rw [if_neg (by linarith), if_neg (by linarith)]
      simp [Accuracy.roundToNearestEven]
    · rw [if_neg (by linarith [h.1]), if_pos (by linarith [h.1])]
      simp [Accuracy.roundToNearestEven]

/-- The round bit takes the bit that a shift drops, the sticky bit all that was missing before. -/
theorem describes_shiftRightOne {em : ExtendedMantissa} {q : ℚ}
    (h : Describes em.mantissa em.accuracy q) :
    Describes em.shiftRightOne.mantissa em.shiftRightOne.accuracy (q / 2) := by
  obtain ⟨m, round, sticky⟩ := em
  have hsplit : (m : ℚ) = 2 * (m / 2 : ℕ) + (m % 2 : ℕ) := by
    exact_mod_cast (Nat.div_add_mod m 2).symm
  have hodd : (1 != 0) = true := rfl
  rcases Nat.mod_two_eq_zero_or_one m with hmod | hmod <;> cases round <;> cases sticky <;>
    simp only [ExtendedMantissa.shiftRightOne, ExtendedMantissa.accuracy, Describes, hmod, hodd,
      bne_self_eq_false, Bool.or_self, Bool.or_true, Bool.or_false, Nat.cast_zero, Nat.cast_one]
      at h hsplit ⊢
  all_goals first | linarith | exact ⟨by linarith, by linarith⟩

/-- Shifting keeps track of where the number lies between two mantissas. -/
theorem describes_shiftRight {em : ExtendedMantissa} {q : ℚ} (k : Nat)
    (h : Describes em.mantissa em.accuracy q) :
    Describes (em >>> k).mantissa (em >>> k).accuracy (q / 2 ^ k) := by
  change Describes (k.repeat ExtendedMantissa.shiftRightOne em).mantissa
    (k.repeat ExtendedMantissa.shiftRightOne em).accuracy _
  induction k with
  | zero => simpa [Nat.repeat] using h
  | succ k ih =>
    rw [Nat.repeat, pow_succ, ← div_div]
    exact describes_shiftRightOne ih

theorem ofMantissaAndAccuracy_mantissa (m : Nat) (a : Accuracy) :
    (ExtendedMantissa.ofMantissaAndAccuracy m a).mantissa = m := by
  cases a with
  | exact => rfl
  | inexact o => cases o <;> rfl

theorem ofMantissaAndAccuracy_accuracy (m : Nat) (a : Accuracy) :
    (ExtendedMantissa.ofMantissaAndAccuracy m a).accuracy = a := by
  cases a with
  | exact => rfl
  | inexact o => cases o <;> rfl

/-! ### Exponents -/

/-- The exponent to which a mantissa is shifted. -/
def target (m : Nat) (e : Int) : Int :=
  Format.binary64.targetExponent (totalExponent m e)

theorem target_eq (m : Nat) (e : Int) : target m e = max (m.log2 + e - 52) (-1074) := by
  simp only [target, Format.targetExponent, totalExponent, Format.mantissaBits, Format.minExponent]
  norm_num
  omega

theorem shiftToTargetExponent_eq (m : Nat) (e : Int) (a : Accuracy) :
    UnpackedFloat.shiftToTargetExponent Format.binary64 m e a =
      (ExtendedMantissa.ofMantissaAndAccuracy m a >>> (target m e - e).toNat,
        e + ((target m e - e).toNat : Int)) := rfl

/-- After the shift the mantissa approximates the number on the grid of doubles. -/
theorem describes_shiftToTargetExponent {m : Nat} {e : Int} {a : Accuracy} {v : ℚ}
    (h : Describes m a (v / 2 ^ e)) (he : e ≤ target m e) :
    Describes (UnpackedFloat.shiftToTargetExponent Format.binary64 m e a).1.mantissa
      (UnpackedFloat.shiftToTargetExponent Format.binary64 m e a).1.accuracy
      (v / 2 ^ target m e) ∧
    (UnpackedFloat.shiftToTargetExponent Format.binary64 m e a).2 = target m e := by
  obtain ⟨k, hk⟩ := Int.le.dest he
  have hshift : (target m e - e).toNat = k := by omega
  rw [shiftToTargetExponent_eq, hshift]
  refine ⟨?_, hk⟩
  rw [← hk, zpow_add₀ two_ne_zero, ← div_div, zpow_natCast]
  refine describes_shiftRight k ?_
  rwa [ofMantissaAndAccuracy_mantissa, ofMantissaAndAccuracy_accuracy]

/-- The exponent to which a mantissa is shifted is that of the grid at the number it describes. -/
theorem target_eq_gridExponent {m : Nat} {e : Int} {a : Accuracy} {v : ℚ} (hv : 0 < v)
    (h : Describes m a (v / 2 ^ e)) (he : e ≤ target m e) : target m e = gridExponent v := by
  obtain ⟨hlow, hhigh⟩ := h.bounds
  rw [le_div_iff₀ (two_zpow_pos e)] at hlow
  rw [div_lt_iff₀ (two_zpow_pos e)] at hhigh
  rw [target_eq] at he ⊢
  rw [gridExponent, abs_of_pos hv]
  rcases Nat.eq_zero_or_pos m with rfl | hm
  · -- Nothing but the missing part is there, so the number lies below the finest grid.
    have hlog : Int.log 2 v < e := (Int.lt_zpow_iff_log_lt (by decide) hv).mp (by
      simpa using hhigh)
    have hzero : Nat.log2 0 = 0 := by decide
    omega
  · have hlow' : (2 : ℚ) ^ ((m.log2 : ℤ) + e) ≤ v := by
      rw [zpow_add₀ two_ne_zero, zpow_natCast]
      have hself : (2 : ℚ) ^ m.log2 ≤ m := by exact_mod_cast Nat.log2_self_le hm.ne'
      exact (mul_le_mul_of_nonneg_right hself (two_zpow_pos e).le).trans hlow
    have hhigh' : v < (2 : ℚ) ^ ((m.log2 : ℤ) + 1 + e) := by
      rw [zpow_add₀ two_ne_zero]
      have hself : (m : ℚ) + 1 ≤ 2 ^ (m.log2 + 1) := by
        exact_mod_cast Nat.lt_log2_self (n := m)
      exact hhigh.trans_le (mul_le_mul_of_nonneg_right (by exact_mod_cast hself)
        (two_zpow_pos e).le)
    have hle : (m.log2 : ℤ) + e ≤ Int.log 2 v :=
      (Int.zpow_le_iff_le_log (by decide) hv).mp (by exact_mod_cast hlow')
    have hlt : Int.log 2 v < (m.log2 : ℤ) + 1 + e :=
      (Int.lt_zpow_iff_log_lt (by decide) hv).mp (by exact_mod_cast hhigh')
    omega

/-! ### Rounding -/

/-- The unpacked form of a magnitude `v` that was rounded, with a sign. -/
def IsRounding (s : Sign) (v : ℚ) : UnpackedFloat → Prop
  | .zero s' => s' = s ∧ rounded v = 0
  | .finite s' m e _ =>
    s' = s ∧ (m < 2 ^ 53 ∧ -1074 ≤ e ∧ (2 ^ 52 ≤ m ∨ e = -1074)) ∧ m * 2 ^ e = rounded v
  | _ => False

/-- A mantissa on the grid needs no second rounding, and one that became too wide by the first is
halved without loss. -/
theorem shiftToTargetExponent_of_rounded {r : Nat} {g : Int} (hr : r ≤ 2 ^ 53) (hg : -1074 ≤ g) :
    UnpackedFloat.shiftToTargetExponent Format.binary64 r g .exact =
      if r = 2 ^ 53 then (⟨2 ^ 52, false, false⟩, g + 1) else (⟨r, false, false⟩, g) := by
  rw [shiftToTargetExponent_eq, target_eq]
  split
  · rename_i hfull
    have hlog : r.log2 = 53 := by
      rw [hfull]
      exact Nat.log2_two_pow
    have hshift : (max ((r.log2 : ℤ) + g - 52) (-1074) - g).toNat = 1 := by omega
    rw [hshift, hfull]
    rfl
  · have hlog : r.log2 ≤ 52 := by
      rcases Nat.eq_zero_or_pos r with rfl | hpos
      · decide
      · have hlt := (Nat.log2_lt hpos.ne').mpr (show r < 2 ^ 53 by omega)
        omega
    have hshift : (max ((r.log2 : ℤ) + g - 52) (-1074) - g).toNat = 0 := by omega
    rw [hshift]
    simp [HShiftRight.hShiftRight, Nat.repeat, ExtendedMantissa.ofMantissaAndAccuracy]

/-- What the mantissa is rounded to on the grid has at most the width of a double, and the full
width above the finest grid. -/
theorem nearestEven_grid_bounds {v : ℚ} (hv : 0 < v) :
    0 ≤ nearestEven (v / 2 ^ gridExponent v) ∧ nearestEven (v / 2 ^ gridExponent v) ≤ 2 ^ 53 ∧
      (2 ^ 52 ≤ nearestEven (v / 2 ^ gridExponent v) ∨ gridExponent v = -1074) := by
  have hpos := two_zpow_pos (gridExponent v)
  refine ⟨nearestEven_nonneg (div_nonneg hv.le hpos.le), ?_, ?_⟩
  · rw [← nearestEven_intCast (2 ^ 53)]
    refine nearestEven_mono ((div_le_iff₀ hpos).mpr ?_)
    exact_mod_cast (lt_two_zpow_gridExponent hv).le
  · by_cases hg : gridExponent v = -1074
    · exact Or.inr hg
    · left
      rw [← nearestEven_intCast (2 ^ 52)]
      refine nearestEven_mono ((le_div_iff₀ hpos).mpr ?_)
      exact_mod_cast le_of_gridExponent_ne hv hg

theorem gridExponent_ge (v : ℚ) : -1074 ≤ gridExponent v :=
  le_max_right _ _

/-- A number that a mantissa approximates is rounded to its nearest form, also if that takes the
mantissa to the next power of two. -/
theorem isRounding_roundWithAccuracy {s : Sign} {m : Nat} {e : Int} {a : Accuracy} {v : ℚ}
    (hv : 0 < v) (h : Describes m a (v / 2 ^ e)) (he : e ≤ target m e) :
    IsRounding s v (UnpackedFloat.roundWithAccuracy Format.binary64 s m e a) := by
  have hgrid := target_eq_gridExponent hv h he
  obtain ⟨hdesc, hexp⟩ := describes_shiftToTargetExponent h he
  obtain ⟨-, hhigh, hfull⟩ := nearestEven_grid_bounds hv
  have hge := gridExponent_ge v
  unfold UnpackedFloat.roundWithAccuracy
  generalize UnpackedFloat.shiftToTargetExponent Format.binary64 m e a = first at *
  obtain ⟨em, e₁⟩ := first
  have hround : (em.roundedMantissa : ℤ) = nearestEven (v / 2 ^ gridExponent v) := by
    rw [← hgrid]
    exact hdesc.roundToNearestEven
  obtain rfl : e₁ = gridExponent v := hexp.trans hgrid
  have hval : (em.roundedMantissa : ℚ) * 2 ^ gridExponent v = rounded v := by
    rw [rounded, ← hround]
    norm_cast
  dsimp only
  rw [shiftToTargetExponent_of_rounded (by omega) hge]
  by_cases htop : em.roundedMantissa = 2 ^ 53
  · rw [if_pos htop, dif_neg (show ¬ 2 ^ 52 = 0 by decide)]
    refine ⟨rfl, ⟨by norm_num, by omega, Or.inl le_rfl⟩, ?_⟩
    rw [← hval, htop, zpow_add₀ two_ne_zero]
    push_cast
    ring
  · rw [if_neg htop]
    split
    · rename_i hzero
      refine ⟨rfl, ?_⟩
      rw [← hval, show em.roundedMantissa = 0 from hzero]
      simp
    · have hwidth : em.roundedMantissa < 2 ^ 53 := by omega
      refine ⟨rfl, ⟨hwidth, hge, ?_⟩, hval⟩
      rcases hfull with hfull | hfull
      · rw [← hround] at hfull
        exact Or.inl (by exact_mod_cast hfull)
      · exact Or.inr hfull

end Milling.Binary64
