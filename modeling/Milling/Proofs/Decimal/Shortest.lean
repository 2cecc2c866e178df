import Milling.Decimal.Shortest
import Milling.Proofs.Decimal.Value
/-!
The shortest decimal of a double reads back to it.

What the search finds was tried, and the full expansion, which stands behind it, is the number
itself.
-/

namespace Milling

open Binary64

namespace Binary64

theorem decode?_of_value {x : Float} {v : ℚ} (h : value? x = some v) :
    ∃ e, decode? x = some e ∧ |v| = e.mantissa * 2 ^ e.exponent := by
  rw [value?_eq_decode?] at h
  obtain ⟨e, he, rfl⟩ := Option.map_eq_some_iff.mp h
  refine ⟨e, he, ?_⟩
  rw [Exact.value, abs_mul, abs_mul, abs_of_pos (two_zpow_pos _), Nat.abs_cast]
  split <;> simp

/-- The expansion of a number is exact. -/
theorem Exact.toRat_expansion (e : Exact) :
    e.expansion.toRat = e.mantissa * 2 ^ e.exponent := by
  unfold expansion
  split
  · rename_i h
    have hden : e.denominator = 1 := if_pos h
    rw [Decimal.toRat, e.magnitude_eq, hden, zpow_zero, Nat.cast_one, mul_one, div_one]
  · rename_i h
    obtain ⟨k, hk⟩ : ∃ k : ℕ, e.exponent = -k := ⟨e.exponent.natAbs, by omega⟩
    have hten : (10 : ℚ) ^ k = 5 ^ k * 2 ^ k := by rw [← mul_pow]; norm_num
    rw [Decimal.toRat, hk, Int.natAbs_neg, Int.natAbs_natCast, zpow_neg, zpow_neg, zpow_natCast,
      zpow_natCast, hten, Nat.pow_eq]
    push_cast
    field_simp

end Binary64

namespace Decimal

/-- Every finite double has a decimal that is rounded to its magnitude. -/
theorem exists_ofFloat? {x : Float} {v : ℚ} (hx : value? x = some v) (halfUp : Bool) :
    ∃ d, ofFloat? halfUp x = some d ∧ d.IsNormal ∧ rounded d.toRat = |v| := by
  obtain ⟨e, he, hv⟩ := decode?_of_value hx
  unfold ofFloat?
  rw [he, Option.map_some]
  split
  · rename_i hzero
    refine ⟨⟨0, 0⟩, rfl, Or.inr rfl, ?_⟩
    rw [hv, hzero, toRat, Nat.cast_zero, zero_mul, zero_mul, rounded_zero]
  · refine ⟨_, rfl, isNormal_trimmed _ _, ?_⟩
    rw [toRat_normal]
    cases hfound : (List.range 17).findSome? fun extra : Nat =>
        (e.neighbours halfUp (e.leading - extra)).find? fun d => d.toFloat == x.abs with
    | none => rw [Option.getD_none, e.toRat_expansion, ← hv, (onGrid_of_value hx).abs.rounded_eq]
    | some d =>
      obtain ⟨extra, -, hfind⟩ := List.exists_of_findSome?_eq_some hfound
      have htried : (d.toFloat == x.abs) = true :=
        List.find?_some (p := fun d : Decimal => d.toFloat == x.abs) hfind
      have hback := (beq_iff_value (value?_abs hx)).mp htried
      have hnear := ((isNearest_toFloat d).value_of_isFinite (isFinite_of_value hback)).1
      rw [hback, Option.some_inj] at hnear
      exact hnear.symm

/-- The decimal is that of the magnitude. -/
theorem ofFloat?_eq_of_decode? {x y : Float} {e : Exact} {negative : Bool}
    (hx : decode? x = some e) (hy : decode? y = some { e with negative }) (halfUp : Bool) :
    ofFloat? halfUp x = ofFloat? halfUp y := by
  have hvx : value? x = some e.value := by rw [value?_eq_decode?, hx, Option.map_some]
  have hvy : value? y = some (Exact.value { e with negative }) := by
    rw [value?_eq_decode?, hy, Option.map_some]
  have habs : |Exact.value { e with negative }| = |e.value| := by
    rw [Exact.value, Exact.value, mul_assoc, mul_assoc, abs_mul, abs_mul _ (_ * _)]
    split <;> split <;> simp
  have hback : ∀ d : Decimal, (d.toFloat == x.abs) = (d.toFloat == y.abs) := by
    intro d
    rw [Bool.eq_iff_iff, beq_iff_value (value?_abs hvx), beq_iff_value (value?_abs hvy), habs]
  unfold ofFloat?
  rw [hx, hy, Option.map_some, Option.map_some]
  simp only [hback]
  rfl

end Decimal

end Milling
