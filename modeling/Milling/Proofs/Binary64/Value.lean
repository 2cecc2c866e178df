import Milling.Binary64.Exact
import Milling.Binary64.Order
import Milling.Proofs.Binary64.Format
import Milling.Proofs.Binary64.Rounding
/-!
The rational value of a finite double, and the order of doubles as the order of values.
-/

namespace Milling.Binary64

open Float.Model
open Float.Model.UnpackedFloat (Sign)

/-- The value of an unpacked form; infinities and NaN have none. -/
def unpackedValue? : UnpackedFloat → Option ℚ
  | .zero _ => some 0
  | .finite s m e _ => some (s.apply m * 2 ^ e)
  | _ => none

/-- The value of a double; infinities and NaN have none. -/
def value? (x : Float) : Option ℚ :=
  unpackedValue? x.toModel.unpack

/-- The number `± mantissa · 2 ^ exponent`. -/
def Exact.value (e : Exact) : ℚ :=
  (if e.negative then -1 else 1) * e.mantissa * 2 ^ e.exponent

/-- The exact number that a double is decoded to has its value. -/
theorem value?_eq_decode? (x : Float) : value? x = (decode? x).map Exact.value := by
  unfold value? decode?
  cases x.toModel.unpack with
  | notANumber => rfl
  | infinity s => rfl
  | zero s => simp [unpackedValue?, Exact.value]
  | finite s m e hm =>
    cases s
    · change some (((-(m : ℤ) : ℤ) : ℚ) * 2 ^ e) = some (-1 * (m : ℚ) * 2 ^ e)
      push_cast
      ring_nf
    · change some (((m : ℤ) : ℚ) * 2 ^ e) = some (1 * (m : ℚ) * 2 ^ e)
      push_cast
      ring_nf

/-- The finite doubles are those with a value. -/
theorem isFinite_iff (x : Float) : x.isFinite = true ↔ ∃ v, value? x = some v := by
  unfold Float.isFinite Float.Model.isFinite value?
  cases x.toModel.unpack <;> simp [UnpackedFloat.isFinite, unpackedValue?]

theorem isFinite_of_value {x : Float} {v : ℚ} (h : value? x = some v) : x.isFinite = true :=
  (isFinite_iff x).mpr ⟨v, h⟩

theorem isNaN_of_value {x : Float} {v : ℚ} (h : value? x = some v) : x.isNaN = false := by
  unfold value? at h
  unfold Float.isNaN Float.Model.isNaN
  cases hx : x.toModel.unpack <;> simp_all [UnpackedFloat.isNaN, unpackedValue?]

theorem unpack_infinity :
    (1.0 / 0.0 : Float).toModel.unpack = .infinity .positive := by
  have h : (1.0 / 0.0 : Float).toModel = Float.Model.pack (.infinity .positive) := by
    decide +kernel
  rw [h, unpack_pack (u := .infinity .positive) trivial trivial]

theorem magnitude_pos {m : Nat} (hm : 0 < m) (e : Int) : (0 : ℚ) < m * 2 ^ e :=
  mul_pos (by exact_mod_cast hm) (two_zpow_pos e)

/-! ### The order -/

/-- The value of a canonical form has the least exponent or at least the full width. -/
theorem mantissa_exponent_lt_iff {m₁ m₂ : Nat} {e₁ e₂ : Int} {h₁ : 0 < m₁} {h₂ : 0 < m₂}
    {s₁ s₂ : Sign} (hc₁ : Canonical (.finite s₁ m₁ e₁ h₁))
    (hc₂ : Canonical (.finite s₂ m₂ e₂ h₂)) :
    (e₁ < e₂ ∨ e₁ = e₂ ∧ m₁ < m₂) ↔ (m₁ : ℚ) * 2 ^ e₁ < m₂ * 2 ^ e₂ := by
  -- A greater exponent outweighs every mantissa.
  have hlt : ∀ {m m' : Nat} {e e' : Int}, m < 2 ^ 53 → -1074 ≤ e → (2 ^ 52 ≤ m' ∨ e' = -1074) →
      e < e' → (m : ℚ) * 2 ^ e < m' * 2 ^ e' := by
    intro m m' e e' hm he hm' hee
    have hfull : 2 ^ 52 ≤ m' := by omega
    have hm_q : (m : ℚ) < 2 ^ 53 := by exact_mod_cast hm
    have hm'_q : (2 : ℚ) ^ 52 ≤ m' := by exact_mod_cast hfull
    calc (m : ℚ) * 2 ^ e < 2 ^ 53 * 2 ^ e := mul_lt_mul_of_pos_right hm_q (two_zpow_pos e)
      _ = 2 ^ 52 * 2 ^ (e + 1) := by rw [zpow_add₀ two_ne_zero]; ring
      _ ≤ 2 ^ 52 * 2 ^ e' := mul_le_mul_of_nonneg_left (two_zpow_le hee) (by norm_num)
      _ ≤ m' * 2 ^ e' := mul_le_mul_of_nonneg_right hm'_q (two_zpow_pos e').le
  obtain ⟨hw₁, hl₁, hf₁⟩ := hc₁
  obtain ⟨hw₂, hl₂, hf₂⟩ := hc₂
  constructor
  · rintro (hee | ⟨rfl, hmm⟩)
    · exact hlt hw₁ hl₁ hf₂ hee
    · exact mul_lt_mul_of_pos_right (by exact_mod_cast hmm) (two_zpow_pos e₁)
  · intro hval
    rcases lt_trichotomy e₁ e₂ with hee | rfl | hee
    · exact Or.inl hee
    · have hmm := lt_of_mul_lt_mul_right hval (two_zpow_pos e₁).le
      exact Or.inr ⟨rfl, by exact_mod_cast hmm⟩
    · exact absurd hval (hlt hw₂ hl₂ hf₁ hee).le.not_gt

/-- Exponents and then mantissas are compared in the order of the magnitudes. -/
theorem compare_finite {m₁ m₂ : Nat} {e₁ e₂ : Int} {h₁ : 0 < m₁} {h₂ : 0 < m₂} {s₁ s₂ : Sign}
    (hc₁ : Canonical (.finite s₁ m₁ e₁ h₁)) (hc₂ : Canonical (.finite s₂ m₂ e₂ h₂)) :
    (compare e₁ e₂).then (compare m₁ m₂) = compare ((m₁ : ℚ) * 2 ^ e₁) (m₂ * 2 ^ e₂) := by
  have hlt := mantissa_exponent_lt_iff hc₁ hc₂
  have hgt := mantissa_exponent_lt_iff hc₂ hc₁
  rcases lt_trichotomy ((m₁ : ℚ) * 2 ^ e₁) (m₂ * 2 ^ e₂) with h | h | h
  · rw [compare_lt_iff_lt.mpr h, Ordering.then_eq_lt, compare_lt_iff_lt, compare_eq_iff_eq,
      compare_lt_iff_lt]
    exact hlt.mpr h
  · rw [compare_eq_iff_eq.mpr h, Ordering.then_eq_eq, compare_eq_iff_eq, compare_eq_iff_eq]
    have hlt' := mt hlt.mp h.not_lt
    have hgt' := mt hgt.mp h.not_gt
    omega
  · rw [compare_gt_iff_gt.mpr h, Ordering.then_eq_gt, compare_gt_iff_gt, compare_eq_iff_eq,
      compare_gt_iff_gt]
    rcases hgt.mpr h with hee | ⟨hee, hmm⟩
    · exact Or.inl hee
    · exact Or.inr ⟨hee.symm, hmm⟩

theorem compare_neg_neg (a b : ℚ) : compare (-a) (-b) = (compare a b).swap := by
  rcases lt_trichotomy a b with h | rfl | h
  · rw [compare_lt_iff_lt.mpr h, compare_gt_iff_gt.mpr (neg_lt_neg h)]
    rfl
  · rw [compare_eq_iff_eq.mpr rfl, compare_eq_iff_eq.mpr rfl]
    rfl
  · rw [compare_gt_iff_gt.mpr h, compare_lt_iff_lt.mpr (neg_lt_neg h)]
    rfl

/-- Finite canonical forms compare as their values. -/
theorem compare_of_unpackedValue {u w : UnpackedFloat} {a b : ℚ} (hu : Canonical u)
    (hw : Canonical w) (hx : unpackedValue? u = some a) (hy : unpackedValue? w = some b) :
    u.compare w = some (compare a b) := by
  cases u with
  | notANumber => cases hx
  | infinity s => cases hx
  | zero s =>
    cases hx
    cases w with
    | notANumber => cases hy
    | infinity s' => cases hy
    | zero s' =>
      cases hy
      rfl
    | finite s' m e hm =>
      cases hy
      have hval := magnitude_pos hm e
      cases s' with
      | negative =>
        symm
        simpa [UnpackedFloat.compare, Sign.apply, compare_gt_iff_gt] using hval
      | positive =>
        symm
        simpa [UnpackedFloat.compare, Sign.apply, compare_lt_iff_lt] using hval
  | finite s m e hm =>
    cases hx
    have hval := magnitude_pos hm e
    cases w with
    | notANumber => cases hy
    | infinity s' => cases hy
    | zero s' =>
      cases hy
      cases s with
      | negative =>
        symm
        simpa [UnpackedFloat.compare, Sign.apply, compare_lt_iff_lt] using hval
      | positive =>
        symm
        simpa [UnpackedFloat.compare, Sign.apply, compare_gt_iff_gt] using hval
    | finite s' m' e' hm' =>
      cases hy
      have hval' := magnitude_pos hm' e'
      cases s with
      | negative =>
        cases s' with
        | negative =>
          simp only [UnpackedFloat.compare, Sign.apply, compare_finite hu hw]
          rw [← compare_neg_neg]
          push_cast
          rw [neg_mul, neg_mul]
        | positive =>
          symm
          simp [UnpackedFloat.compare, Sign.apply, compare_lt_iff_lt]
          linarith
      | positive =>
        cases s' with
        | negative =>
          symm
          simp [UnpackedFloat.compare, Sign.apply, compare_gt_iff_gt]
          linarith
        | positive =>
          simp [UnpackedFloat.compare, Sign.apply, compare_finite hu hw]

theorem lt_iff_compare (x y : Float) :
    x < y ↔ x.toModel.unpack.compare y.toModel.unpack = some .lt := by
  change decide (x.toModel < y.toModel) = true ↔ _
  rw [decide_eq_true_iff]
  change (x.toModel.unpack.compare y.toModel.unpack == some .lt) = true ↔ _
  exact beq_iff_eq

theorem le_iff_compare (x y : Float) :
    x ≤ y ↔ ∃ o : Ordering, x.toModel.unpack.compare y.toModel.unpack = some o ∧ o.isLE := by
  change decide (x.toModel ≤ y.toModel) = true ↔ _
  rw [decide_eq_true_iff]
  change (x.toModel.unpack.compare y.toModel.unpack).any (·.isLE) = true ↔ _
  rw [Option.any_eq_true]

theorem le_of_less {x y : Float} (h : x < y) : x ≤ y :=
  (le_iff_compare x y).mpr ⟨.lt, (lt_iff_compare x y).mp h, rfl⟩

theorem beq_iff_compare (x y : Float) :
    (x == y) = true ↔ x.toModel.unpack.compare y.toModel.unpack = some .eq := by
  change (x.toModel.unpack.compare y.toModel.unpack == some .eq) = true ↔ _
  exact beq_iff_eq

/-- Finite doubles are ordered as their values. -/
theorem lt_iff_of_value {x y : Float} {a b : ℚ} (hx : value? x = some a)
    (hy : value? y = some b) : x < y ↔ a < b := by
  rw [lt_iff_compare, compare_of_unpackedValue (canonical_unpack _).1 (canonical_unpack _).1 hx hy,
    Option.some_inj, compare_lt_iff_lt]

/-- The order of doubles is that of their values. -/
theorem le_iff_of_value {x y : Float} {a b : ℚ} (hx : value? x = some a)
    (hy : value? y = some b) : x ≤ y ↔ a ≤ b := by
  rw [le_iff_compare, compare_of_unpackedValue (canonical_unpack _).1 (canonical_unpack _).1 hx hy,
    ← compare_le_iff_le]
  simp [Ordering.isLE_iff_ne_gt]

/-- Doubles are equal if their values are; zeros of either sign have one value. -/
theorem beq_iff_of_value {x y : Float} {a b : ℚ} (hx : value? x = some a)
    (hy : value? y = some b) : (x == y) = true ↔ a = b := by
  rw [beq_iff_compare,
    compare_of_unpackedValue (canonical_unpack _).1 (canonical_unpack _).1 hx hy,
    Option.some_inj, compare_eq_iff_eq]

/-- Only a number of the same value is equal to a finite double. -/
theorem beq_iff_value {x y : Float} {b : ℚ} (hy : value? y = some b) :
    (x == y) = true ↔ value? x = some b := by
  cases hx : value? x with
  | some a => rw [beq_iff_of_value hx hy, Option.some_inj]
  | none =>
    unfold value? at hx hy
    rw [beq_iff_compare]
    cases hux : x.toModel.unpack with
    | notANumber => simp [UnpackedFloat.compare]
    | infinity s =>
      cases s <;> cases huy : y.toModel.unpack <;>
        simp_all [UnpackedFloat.compare, unpackedValue?]
    | zero s => simp_all [unpackedValue?]
    | finite s m e hm => simp_all [unpackedValue?]

end Milling.Binary64
