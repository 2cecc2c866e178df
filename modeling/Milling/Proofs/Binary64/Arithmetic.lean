import Milling.Proofs.Binary64.Shift
/-!
The operations on doubles as operations on values.

Products, quotients, sums and literals are the double nearest to the exact result (`IsNearest`), as
long as the arguments are finite.
-/

namespace Milling.Binary64

open Float.Model
open Float.Model.UnpackedFloat (Sign Accuracy ExtendedMantissa)

def signed : Sign → ℚ → ℚ
  | .negative, v => -v
  | .positive, v => v

/-- The least power of two above all finite doubles. -/
def limit : ℚ := 2 ^ (1024 : ℤ)

/-- The double is nearest to a number: its value is the rounded number, or it is the infinity with
the sign of a number that is out of range. -/
def IsNearest (x : Float) (v : ℚ) : Prop :=
  if |rounded v| < limit then value? x = some (rounded v)
  else x.toModel.unpack = .infinity (if v < 0 then .negative else .positive)

theorem limit_pos : 0 < limit :=
  two_zpow_pos 1024

theorem abs_rounded_zero_lt : |rounded 0| < limit := by
  rw [rounded_zero, abs_zero]
  exact limit_pos

theorem limit_eq (k : ℕ) : limit = 2 ^ k * 2 ^ (1024 - k : ℤ) := by
  rw [limit, ← zpow_natCast, ← zpow_add₀ two_ne_zero]
  congr 1
  omega

theorem rounded_signed (s : Sign) (v : ℚ) : rounded (signed s v) = signed s (rounded v) := by
  cases s
  · exact rounded_neg v
  · rfl

theorem abs_signed (s : Sign) (v : ℚ) : |signed s v| = |v| := by
  cases s
  · exact abs_neg v
  · rfl

theorem apply_mul (s : Sign) (m : Nat) (v : ℚ) : (s.apply m : ℚ) * v = signed s (m * v) := by
  cases s <;> simp [Sign.apply, signed]

/-- In range the nearest double has the rounded number as its value. -/
theorem IsNearest.value {x : Float} {v : ℚ} (h : IsNearest x v) (hr : |rounded v| < limit) :
    value? x = some (rounded v) := by
  rwa [IsNearest, if_pos hr] at h

/-- A finite double that is nearest to a number has the rounded number as its value. -/
theorem IsNearest.value_of_isFinite {x : Float} {v : ℚ} (h : IsNearest x v)
    (hx : x.isFinite = true) : value? x = some (rounded v) ∧ |rounded v| < limit := by
  unfold IsNearest at h
  split at h
  · rename_i hr
    exact ⟨h, hr⟩
  · unfold Float.isFinite Float.Model.isFinite at hx
    rw [h] at hx
    cases hx

/-- A double with a value is a zero or has a sign, a mantissa and an exponent. -/
theorem unpack_of_value {x : Float} {v : ℚ} (h : value? x = some v) :
    (∃ s, x.toModel.unpack = .zero s ∧ v = 0) ∨
      ∃ s m e hm, x.toModel.unpack = .finite s m e hm ∧ v = signed s (m * 2 ^ e) := by
  unfold value? at h
  cases hu : x.toModel.unpack with
  | notANumber =>
    rw [hu] at h
    cases h
  | infinity s =>
    rw [hu] at h
    cases h
  | zero s =>
    rw [hu] at h
    cases h
    exact Or.inl ⟨s, rfl, rfl⟩
  | finite s m e hm =>
    rw [hu, unpackedValue?, apply_mul] at h
    cases h
    exact Or.inr ⟨s, m, e, hm, rfl, rfl⟩

theorem value?_of_toModel {x : Float} {u : UnpackedFloat} (hx : x.toModel = Float.Model.pack u)
    (hc : Canonical u) (hr : InRange u) : value? x = unpackedValue? u := by
  rw [value?, hx, unpack_pack hc hr]

theorem magnitude_lt_limit {m : Nat} {e : Int} (hm : m < 2 ^ 53) (he : e ≤ 971) :
    (m : ℚ) * 2 ^ e < limit := by
  have hm' : (m : ℚ) < 2 ^ 53 := by exact_mod_cast hm
  calc (m : ℚ) * 2 ^ e < 2 ^ 53 * 2 ^ e := mul_lt_mul_of_pos_right hm' (two_zpow_pos e)
    _ ≤ 2 ^ 53 * 2 ^ (1024 - (53 : ℕ) : ℤ) :=
      mul_le_mul_of_nonneg_left (two_zpow_le (by omega)) (by norm_num)
    _ = limit := (limit_eq 53).symm

/-- Packing what was rounded gives the nearest double. -/
theorem isNearest_pack {x : Float} {u : UnpackedFloat} {s : Sign} {v : ℚ} (hv : 0 < v)
    (h : IsRounding s v u) (hx : x.toModel = Float.Model.pack u) : IsNearest x (signed s v) := by
  have hneg : (if signed s v < 0 then Sign.negative else Sign.positive) = s := by
    cases s
    · exact if_pos (neg_lt_zero.mpr hv)
    · exact if_neg hv.le.not_gt
  unfold IsNearest
  rw [hneg, rounded_signed, abs_signed]
  cases u with
  | notANumber => cases h
  | infinity s' => cases h
  | zero s' =>
    obtain ⟨rfl, hzero⟩ := h
    rw [hzero, if_pos (by simpa using limit_pos), value?_of_toModel hx trivial trivial]
    cases s' <;> simp [unpackedValue?, signed]
  | finite s' m e hm =>
    obtain ⟨rfl, hc, hval⟩ := h
    rw [← hval, abs_of_pos (magnitude_pos hm e)]
    rcases le_or_gt e 971 with he | he
    · rw [if_pos (magnitude_lt_limit hc.1 he), value?_of_toModel hx hc he, unpackedValue?, apply_mul]
    · have hrange : ¬ (m : ℚ) * 2 ^ e < limit := by
        have hm' : (2 : ℚ) ^ 52 ≤ m := by
          exact_mod_cast hc.2.2.resolve_right (by omega)
        rw [not_lt]
        calc limit = 2 ^ 52 * 2 ^ (1024 - (52 : ℕ) : ℤ) := limit_eq 52
          _ ≤ 2 ^ 52 * 2 ^ e := mul_le_mul_of_nonneg_left (two_zpow_le (by omega)) (by norm_num)
          _ ≤ m * 2 ^ e := mul_le_mul_of_nonneg_right hm' (two_zpow_pos e).le
      rw [if_neg hrange, hx, unpack_pack_of_overflow hm (by omega)]

/-- A rounded form, packed into a double, is the double nearest to the number, also where packing
overflows. -/
theorem isNearest_pack_positive {x : Float} {u : UnpackedFloat} {v : ℚ} (hv : 0 < v)
    (h : IsRounding .positive v u) (hx : x.toModel = Float.Model.pack u) : IsNearest x v := by
  have hnear := isNearest_pack (s := .positive) hv h hx
  rwa [signed] at hnear

theorem isNearest_zero {x : Float} (h : value? x = some 0) : IsNearest x 0 := by
  rw [IsNearest, rounded_zero, if_pos (by simpa using limit_pos), h]

theorem value?_pack_zero {x : Float} {s : Sign} (h : x.toModel = Float.Model.pack (.zero s)) :
    value? x = some 0 :=
  value?_of_toModel h trivial trivial

/-- The exponent is not above that of the grid if the mantissa has the full width. -/
theorem le_target {m : Nat} {e : Int} (h : 2 ^ 52 ≤ m ∨ e ≤ -1074) : e ≤ target m e := by
  rw [target_eq]
  rcases h with h | h
  · have hlog : 52 ≤ m.log2 := (Nat.le_log2 (by omega)).mpr h
    omega
  · omega

/-! ### Magnitudes -/

theorem unpack_abs (x : Float) : x.abs.toModel.unpack = x.toModel.unpack.abs := by
  have habs : x.abs.toModel = Float.Model.pack x.toModel.unpack.abs := rfl
  obtain ⟨hc, hr⟩ := canonical_unpack x.toModel
  rw [habs]
  cases hu : x.toModel.unpack with
  | finite s m e hm =>
    rw [hu] at hc hr
    exact unpack_pack (u := .finite .positive m e hm) hc hr
  | _ => exact unpack_pack trivial trivial

theorem unpack_neg (x : Float) : (-x).toModel.unpack = x.toModel.unpack.neg := by
  have hneg : (-x).toModel = Float.Model.pack x.toModel.unpack.neg := rfl
  obtain ⟨hc, hr⟩ := canonical_unpack x.toModel
  rw [hneg]
  cases hu : x.toModel.unpack with
  | finite s m e hm =>
    rw [hu] at hc hr
    exact unpack_pack (u := .finite (-s) m e hm) hc hr
  | _ => exact unpack_pack trivial trivial

theorem value?_abs {x : Float} {v : ℚ} (h : value? x = some v) : value? x.abs = some |v| := by
  rw [value?, unpack_abs]
  rcases unpack_of_value h with ⟨s, hu, rfl⟩ | ⟨s, m, e, hm, hu, rfl⟩
  · rw [hu, abs_zero]
    rfl
  · rw [hu, abs_signed, abs_of_pos (magnitude_pos hm e)]
    exact congrArg some (apply_mul .positive m (2 ^ e))

theorem isFinite_neg {x : Float} (h : x.isFinite = true) : (-x).isFinite = true := by
  unfold Float.isFinite Float.Model.isFinite at h ⊢
  rw [unpack_neg]
  cases hu : x.toModel.unpack <;> rw [hu] at h <;> first | rfl | exact h

theorem onGrid_of_value {x : Float} {v : ℚ} (h : value? x = some v) : OnGrid v := by
  rcases unpack_of_value h with ⟨s, -, rfl⟩ | ⟨s, m, e, hm, hu, rfl⟩
  · exact onGrid_zero
  · have hc := (canonical_unpack x.toModel).1
    rw [hu] at hc
    have hgrid : OnGrid (m * 2 ^ e) := ⟨m, e, by exact_mod_cast hc.1, hc.2.1, by push_cast; rfl⟩
    cases s
    · exact hgrid.neg
    · exact hgrid

/-! ### Products -/

/-- Products are formed exactly and then rounded once. -/
theorem isRounding_mul {s : Sign} {m₁ m₂ : Nat} {e₁ e₂ : Int} (h₁ : 0 < m₁) (h₂ : 0 < m₂)
    (hwide : 2 ^ 52 ≤ m₁ * m₂ ∨ e₁ + e₂ ≤ -1074) :
    IsRounding s ((m₁ * 2 ^ e₁) * (m₂ * 2 ^ e₂))
      (UnpackedFloat.roundWithAccuracy Format.binary64 s (m₁ * m₂) (e₁ + e₂) .exact) := by
  have hpos := mul_pos (magnitude_pos h₁ e₁) (magnitude_pos h₂ e₂)
  refine isRounding_roundWithAccuracy hpos ?_ (le_target hwide)
  change _ = ((m₁ * m₂ : ℕ) : ℚ)
  rw [div_eq_iff (two_zpow_pos _).ne', zpow_add₀ two_ne_zero]
  push_cast
  ring

theorem signed_mul (s t : Sign) (a b : ℚ) : signed (s * t) (a * b) = signed s a * signed t b := by
  cases s <;> cases t
  · exact (neg_mul_neg a b).symm
  · exact (neg_mul a b).symm
  · exact (mul_neg a b).symm
  · rfl

/-- Products of doubles are rounded to the nearest double. -/
theorem isNearest_mul {x y : Float} {a b : ℚ} (hx : value? x = some a) (hy : value? y = some b) :
    IsNearest (x * y) (a * b) := by
  have hmul : (x * y).toModel =
      Float.Model.pack (UnpackedFloat.mul Format.binary64 x.toModel.unpack y.toModel.unpack) := rfl
  have hcx := (canonical_unpack x.toModel).1
  have hcy := (canonical_unpack y.toModel).1
  rcases unpack_of_value hx with ⟨s, hux, rfl⟩ | ⟨s, m, e, hm, hux, rfl⟩ <;>
    rcases unpack_of_value hy with ⟨t, huy, rfl⟩ | ⟨t, n, d, hn, huy, rfl⟩ <;>
    rw [hux, huy] at hmul
  · rw [mul_zero]
    exact isNearest_zero (value?_pack_zero hmul)
  · rw [zero_mul]
    exact isNearest_zero (value?_pack_zero hmul)
  · rw [mul_zero]
    exact isNearest_zero (value?_pack_zero hmul)
  · rw [hux] at hcx
    rw [huy] at hcy
    -- Either factor has the full width, or both have the least exponent.
    have hwide : 2 ^ 52 ≤ m * n ∨ e + d ≤ -1074 := by
      rcases hcx.2.2 with h | h
      · exact Or.inl (h.trans (Nat.le_mul_of_pos_right m hn))
      · rcases hcy.2.2 with h' | h'
        · exact Or.inl (h'.trans (Nat.le_mul_of_pos_left n hm))
        · exact Or.inr (by omega)
    rw [← signed_mul]
    exact isNearest_pack (mul_pos (magnitude_pos hm e) (magnitude_pos hn d)) (isRounding_mul hm hn hwide) hmul

/-! ### Quotients -/

theorem signed_div (s t : Sign) (a b : ℚ) : signed (s / t) (a / b) = signed s a / signed t b := by
  cases s <;> cases t
  · exact (neg_div_neg_eq a b).symm
  · exact (neg_div b a).symm
  · exact (div_neg a).symm
  · rfl

/-- A quotient of naturals lies where the remainder of the division says. -/
theorem describes_fraction {m n k : Nat} (hn : 0 < n) (hk : m = n * (m / n) + k) (hlt : k < n) :
    Describes (m / n) (UnpackedFloat.accuracyOfFraction k n) ((m : ℚ) / n) := by
  have hn' : (0 : ℚ) < n := by exact_mod_cast hn
  have hquot : (m : ℚ) / n = (m / n : ℕ) + (k : ℚ) / n := by
    rw [eq_comm, ← mul_left_inj' hn'.ne', add_mul, div_mul_cancel₀ _ hn'.ne',
      div_mul_cancel₀ _ hn'.ne', mul_comm]
    exact_mod_cast hk.symm
  have hlt' : (k : ℚ) / n < 1 := (div_lt_one hn').mpr (by exact_mod_cast hlt)
  unfold UnpackedFloat.accuracyOfFraction
  rw [hquot]
  split
  · rename_i hzero
    simp [Describes, hzero]
  · rename_i hne
    have hpos : (0 : ℚ) < k / n := div_pos (by exact_mod_cast Nat.pos_of_ne_zero hne) hn'
    cases hcmp : compare (2 * k) n
    · have hhalf : (k : ℚ) / n < 1 / 2 := by
        rw [div_lt_div_iff₀ hn' two_pos]
        exact_mod_cast (by have := compare_lt_iff_lt.mp hcmp; omega : k * 2 < 1 * n)
      exact ⟨by linarith, by linarith⟩
    · have hhalf : (k : ℚ) / n = 1 / 2 := by
        rw [div_eq_div_iff hn'.ne' two_ne_zero]
        exact_mod_cast (by have := compare_eq_iff_eq.mp hcmp; omega : k * 2 = 1 * n)
      exact congrArg _ hhalf
    · have hhalf : 1 / 2 < (k : ℚ) / n := by
        rw [div_lt_div_iff₀ two_pos hn']
        exact_mod_cast (by have := compare_gt_iff_gt.mp hcmp; omega : 1 * n < k * 2)
      exact ⟨by linarith, by linarith⟩

/-- The quotient of the mantissas, with the dividend shifted so far that it has the full width. -/
theorem isRounding_div {s : Sign} {m₁ m₂ : Nat} {e₁ e₂ : Int} (h₁ : 0 < m₁) (h₂ : 0 < m₂) :
    IsRounding s ((m₁ * 2 ^ e₁) / (m₂ * 2 ^ e₂))
      (UnpackedFloat.roundWithAccuracy Format.binary64 s
        (UnpackedFloat.divCore Format.binary64 m₁ e₁ m₂ e₂).1
        (UnpackedFloat.divCore Format.binary64 m₁ e₁ m₂ e₂).2.1
        (UnpackedFloat.divCore Format.binary64 m₁ e₁ m₂ e₂).2.2) := by
  have hm₂ : (0 : ℚ) < m₂ := by exact_mod_cast h₂
  have hpos := div_pos (magnitude_pos h₁ e₁) (magnitude_pos h₂ e₂)
  set t : Int := min (e₁ - e₂)
    (Format.binary64.targetExponent (totalExponent m₁ e₁ - totalExponent m₂ e₂)) with ht
  have htarget : Format.binary64.targetExponent (totalExponent m₁ e₁ - totalExponent m₂ e₂) =
      max ((m₁.log2 + e₁) - (m₂.log2 + e₂) - 53) (-1074) := by
    simp only [Format.targetExponent, totalExponent, Format.mantissaBits, Format.minExponent]
    norm_num
    omega
  rw [htarget] at ht
  obtain ⟨k, hk⟩ := Int.le.dest (show t ≤ e₁ - e₂ by omega)
  have hshift : (e₁ - e₂ - t).toNat = k := by omega
  have hcore : UnpackedFloat.divCore Format.binary64 m₁ e₁ m₂ e₂ =
      (m₁ * 2 ^ k / m₂, t, UnpackedFloat.accuracyOfFraction (m₁ * 2 ^ k % m₂) m₂) := by
    rw [← Nat.shiftLeft_eq, ← hshift]
    rfl
  have hval : m₁ * 2 ^ e₁ / (m₂ * 2 ^ e₂) / 2 ^ t = ((m₁ * 2 ^ k : ℕ) : ℚ) / m₂ := by
    have hexp : (2 : ℚ) ^ e₁ = 2 ^ t * 2 ^ k * 2 ^ e₂ := by
      rw [← zpow_natCast, ← zpow_add₀ two_ne_zero, ← zpow_add₀ two_ne_zero]
      congr 1
      omega
    rw [div_div, div_eq_div_iff (mul_pos (magnitude_pos h₂ e₂) (two_zpow_pos t)).ne' hm₂.ne', hexp]
    push_cast
    ring
  rw [hcore]
  refine isRounding_roundWithAccuracy hpos ?_ (le_target ?_)
  · rw [hval]
    exact describes_fraction h₂ (Nat.div_add_mod _ _).symm (Nat.mod_lt _ h₂)
  · rcases le_or_gt t (-1074) with hlow | hlow
    · exact Or.inr hlow
    · -- The shifted dividend is at least the `2 ^ 52`-fold of the divisor.
      left
      rw [Nat.le_div_iff_mul_le h₂]
      have hexp : 52 + (m₂.log2 + 1) ≤ m₁.log2 + k := by omega
      calc 2 ^ 52 * m₂ ≤ 2 ^ 52 * 2 ^ (m₂.log2 + 1) :=
            Nat.mul_le_mul_left _ (Nat.lt_log2_self).le
        _ = 2 ^ (52 + (m₂.log2 + 1)) := (pow_add ..).symm
        _ ≤ 2 ^ (m₁.log2 + k) := Nat.pow_le_pow_right two_pos hexp
        _ = 2 ^ m₁.log2 * 2 ^ k := pow_add ..
        _ ≤ m₁ * 2 ^ k := Nat.mul_le_mul_right _ (Nat.log2_self_le h₁.ne')

/-- Quotients of doubles are rounded to the nearest double. -/
theorem isNearest_div {x y : Float} {a b : ℚ} (hx : value? x = some a) (hy : value? y = some b)
    (hb : b ≠ 0) : IsNearest (x / y) (a / b) := by
  have hdiv : (x / y).toModel =
      Float.Model.pack (UnpackedFloat.div Format.binary64 x.toModel.unpack y.toModel.unpack) := rfl
  rcases unpack_of_value hy with ⟨t, -, rfl⟩ | ⟨t, n, d, hn, huy, rfl⟩
  · exact absurd rfl hb
  rcases unpack_of_value hx with ⟨s, hux, rfl⟩ | ⟨s, m, e, hm, hux, rfl⟩ <;>
    rw [hux, huy] at hdiv
  · rw [zero_div]
    exact isNearest_zero (value?_pack_zero hdiv)
  · rw [← signed_div]
    exact isNearest_pack (div_pos (magnitude_pos hm e) (magnitude_pos hn d))
      (isRounding_div hm hn) hdiv

/-! ### Integers and literals -/

theorem isRounding_round {s : Sign} {m : Nat} {e : Int} (hm : 0 < m) :
    IsRounding s (m * 2 ^ e) (UnpackedFloat.round Format.binary64 s m e) := by
  obtain ⟨k, hk⟩ : ∃ k : Nat, (e - target m e).toNat = k := ⟨_, rfl⟩
  have hround : UnpackedFloat.round Format.binary64 s m e =
      UnpackedFloat.roundWithAccuracy Format.binary64 s (m * 2 ^ k) (e - k) .exact := by
    rw [← Nat.shiftLeft_eq, ← hk]
    rfl
  have htarget : target (m * 2 ^ k) (e - k) = target m e := by
    have hlog : (m * 2 ^ k).log2 = m.log2 + k := by
      rw [Nat.log2_eq_iff (by positivity)]
      constructor
      · rw [pow_add]
        exact Nat.mul_le_mul_right _ (Nat.log2_self_le hm.ne')
      · rw [add_right_comm, pow_add _ (m.log2 + 1)]
        exact Nat.mul_lt_mul_of_pos_right Nat.lt_log2_self (by positivity)
    rw [target_eq, target_eq, hlog]
    push_cast
    omega
  rw [hround]
  refine isRounding_roundWithAccuracy (magnitude_pos hm e) ?_ (by omega)
  change _ = ((m * 2 ^ k : ℕ) : ℚ)
  rw [div_eq_iff (two_zpow_pos _).ne']
  push_cast
  rw [mul_assoc, ← zpow_natCast, ← zpow_add₀ two_ne_zero]
  congr 2
  omega

end Milling.Binary64
