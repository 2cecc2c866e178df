import Milling.Proofs.Binary64.Magnitude
/-!
Sums and differences of doubles.

A sum is the double nearest to the sum of the values (`isNearest_add`), and a difference is a sum
with the other sign (`sub_eq_add`). The doubles are so dense around zero that no difference of two
of them is rounded to zero unless they are equal (`rounded_sub_pos`).
-/

namespace Milling.Binary64

open Float.Model
open Float.Model.UnpackedFloat (Sign)

variable {x y : Float} {a b : ℚ}

/-- A double above zero is told by its value. -/
theorem eq_of_value_pos (hx : value? x = some a) (hy : value? y = some a) (hpos : 0 < a) :
    x = y := by
  have habs : ∀ {z : Float}, value? z = some a → z = x.abs := by
    intro z hz
    exact eq_abs_of_value hx hpos.ne' (by rw [abs_of_pos hpos, hz])
  rw [habs hx, ← habs hy]

theorem unpack_of_value_zero (hx : value? x = some 0) : ∃ s, x.toModel.unpack = .zero s := by
  rcases unpack_of_value hx with ⟨s, hu, -⟩ | ⟨s, m, e, hm, -, hzero⟩
  · exact ⟨s, hu⟩
  · have hpos := magnitude_pos hm e
    cases s
    · exact absurd (neg_eq_zero.mp hzero.symm) hpos.ne'
    · exact absurd hzero.symm hpos.ne'

/-! ### Sums -/

/-- A mantissa with a sign is rounded like its magnitude. -/
theorem isNearest_normalize {s : Sign} {m e : ℤ}
    (hx : x.toModel = Float.Model.pack (UnpackedFloat.normalize Format.binary64 m e s)) :
    IsNearest x (m * 2 ^ e) := by
  unfold UnpackedFloat.normalize at hx
  split at hx
  · rename_i hlt
    obtain ⟨n, hn⟩ : ∃ n : ℕ, m = -n := ⟨m.natAbs, by
      have := compare_lt_iff_lt.mp hlt
      omega⟩
    have hpos : 0 < n := by
      have := compare_lt_iff_lt.mp hlt
      omega
    rw [hn, neg_neg, Int.toNat_natCast] at hx
    rw [hn]
    push_cast
    rw [neg_mul]
    exact isNearest_pack (s := .negative) (magnitude_pos hpos e) (isRounding_round hpos) hx
  · rename_i heq
    rw [compare_eq_iff_eq.mp heq, Int.cast_zero, zero_mul]
    exact isNearest_zero (value?_pack_zero hx)
  · rename_i hgt
    obtain ⟨n, rfl⟩ := Int.eq_ofNat_of_zero_le (compare_gt_iff_gt.mp hgt).le
    have hpos : 0 < n := by exact_mod_cast compare_gt_iff_gt.mp hgt
    rw [Int.toNat_natCast] at hx
    exact isNearest_pack_positive (magnitude_pos hpos e) (isRounding_round hpos) hx

theorem isNearest_of_value (hx : value? x = some a) : IsNearest x a := by
  rw [IsNearest, (onGrid_of_value hx).rounded_eq, if_pos (abs_lt_limit hx), hx]

/-- The mantissa at a lesser exponent, with its sign. -/
theorem aligned_value (s : Sign) (m : Nat) {e d : ℤ} (hd : d ≤ e) :
    (s.apply ((UnpackedFloat.decreaseExponent m e d).1 : ℤ) : ℚ) * 2 ^ d =
      signed s (m * 2 ^ e) := by
  obtain ⟨k, hk⟩ := Int.le.dest hd
  have hshift : (e - d).toNat = k := by omega
  have hexp : (2 : ℚ) ^ e = 2 ^ k * 2 ^ d := by
    rw [← hk, zpow_add₀ two_ne_zero, zpow_natCast, mul_comm]
  rw [UnpackedFloat.decreaseExponent, hshift, apply_mul, Nat.shiftLeft_eq, hexp]
  push_cast
  rw [mul_assoc]

theorem toModel_add (x y : Float) : (x + y).toModel =
    Float.Model.pack (UnpackedFloat.add Format.binary64 x.toModel.unpack y.toModel.unpack) := rfl

/-- Sums of doubles are rounded to the nearest double. -/
theorem isNearest_add (hx : value? x = some a) (hy : value? y = some b) :
    IsNearest (x + y) (a + b) := by
  have hadd := toModel_add x y
  have hvalue : ∀ {z : Float} {v : ℚ}, value? z = some v →
      (x + y).toModel = Float.Model.pack z.toModel.unpack → value? (x + y) = some v := by
    intro z v hz hmodel
    obtain ⟨hc, hr⟩ := canonical_unpack z.toModel
    rw [value?_of_toModel hmodel hc hr]
    exact hz
  rcases unpack_of_value hx with ⟨s, hux, rfl⟩ | ⟨s, m, e, hm, hux, rfl⟩ <;>
    rcases unpack_of_value hy with ⟨t, huy, rfl⟩ | ⟨t, n, d, hn, huy, rfl⟩
  · rw [add_zero]
    rw [hux, huy] at hadd
    cases s <;> cases t <;> exact isNearest_zero (value?_pack_zero hadd)
  · rw [zero_add]
    refine isNearest_of_value (hvalue hy ?_)
    rw [hadd, hux, huy]
    rfl
  · rw [add_zero]
    refine isNearest_of_value (hvalue hx ?_)
    rw [hadd, hux, huy]
    rfl
  · rw [← aligned_value s m (min_le_left e d), ← aligned_value t n (min_le_right e d), ← add_mul,
      ← Int.cast_add]
    rw [hux, huy] at hadd
    exact isNearest_normalize hadd

/-- Nothing is added to a zero but the other number, unless that is a zero as well. -/
theorem zero_add_of_value (hx : value? x = some 0) (hy : value? y = some b) (hb : b ≠ 0) :
    x + y = y := by
  obtain ⟨hc, hr⟩ := canonical_unpack y.toModel
  obtain ⟨s, hux⟩ := unpack_of_value_zero hx
  rcases unpack_of_value hy with ⟨t, -, rfl⟩ | ⟨t, n, d, hn, huy, -⟩
  · exact absurd rfl hb
  · apply eq_of_unpack
    rw [huy] at hc hr ⊢
    rw [toModel_add, hux, huy]
    exact unpack_pack hc hr

theorem unpack_add_infinity {s : Sign} (hx : x.isFinite = true)
    (hy : y.toModel.unpack = .infinity s) : (x + y).toModel.unpack = .infinity s := by
  have hsum : UnpackedFloat.add Format.binary64 x.toModel.unpack (.infinity s) = .infinity s := by
    unfold Float.isFinite Float.Model.isFinite at hx
    cases hux : x.toModel.unpack <;> rw [hux] at hx <;> first | rfl | cases hx
  rw [toModel_add, hy, hsum, unpack_pack (u := .infinity s) trivial trivial]

/-- Nothing but a finite double keeps a sum with a finite one finite. -/
theorem isFinite_of_add (hx : x.isFinite = true) (h : (x + y).isFinite = true) :
    y.isFinite = true := by
  unfold Float.isFinite Float.Model.isFinite at h ⊢
  cases huy : y.toModel.unpack with
  | zero t => rfl
  | finite t n d hn => rfl
  | infinity t =>
    rw [unpack_add_infinity hx huy] at h
    cases h
  | notANumber =>
    have hsum : UnpackedFloat.add Format.binary64 x.toModel.unpack .notANumber = .notANumber := by
      cases x.toModel.unpack <;> rfl
    rw [toModel_add, huy, hsum, unpack_pack (u := .notANumber) trivial trivial] at h
    cases h

theorem value_neg (hx : value? x = some a) : value? (-x) = some (-a) := by
  rw [value?, unpack_neg]
  rcases unpack_of_value hx with ⟨s, hu, rfl⟩ | ⟨s, m, e, hm, hu, rfl⟩
  · rw [hu, neg_zero]
    rfl
  · rw [hu]
    refine (congrArg some (apply_mul (-s) m (2 ^ e))).trans ?_
    cases s
    · rw [signed, neg_neg]
      rfl
    · rfl

/-! ### Differences -/

theorem sub_eq_add (x y : Float) : x - y = x + -y := by
  apply congrArg Float.ofModel
  change Float.Model.pack (UnpackedFloat.sub Format.binary64 x.toModel.unpack y.toModel.unpack) =
    Float.Model.pack (UnpackedFloat.add Format.binary64 x.toModel.unpack (-y).toModel.unpack)
  rw [unpack_neg]
  congr 1
  have happly : ∀ (s : Sign) (n : ℤ), (-s).apply n = -s.apply n := by
    intro s n
    cases s
    · exact (neg_neg n).symm
    · rfl
  cases x.toModel.unpack <;> cases y.toModel.unpack <;>
    simp only [UnpackedFloat.sub, UnpackedFloat.add, UnpackedFloat.neg, happly, Int.sub_eq_add_neg]

theorem isNearest_sub (hx : value? x = some a) (hy : value? y = some b) :
    IsNearest (x - y) (a - b) := by
  rw [sub_eq_add, sub_eq_add_neg]
  exact isNearest_add hx (value_neg hy)

/-- All doubles are multiples of the least one. -/
theorem OnGrid.exists_eq_mul {v : ℚ} (h : OnGrid v) : ∃ n : ℤ, v = n * 2 ^ (-1074 : ℤ) := by
  obtain ⟨m, e, -, he, rfl⟩ := h
  obtain ⟨k, hk⟩ := Int.le.dest he
  refine ⟨m * 2 ^ k, ?_⟩
  rw [← hk, zpow_add₀ two_ne_zero, zpow_natCast, Int.cast_mul, Int.cast_pow, Int.cast_ofNat,
    mul_assoc, mul_comm (2 ^ k)]

/-- Different doubles have a difference that does not vanish in rounding: it is a multiple of the
least double. -/
theorem rounded_sub_pos (ha : OnGrid a) (hb : OnGrid b) (h : a < b) : 0 < rounded (b - a) := by
  obtain ⟨m, hm⟩ := ha.exists_eq_mul
  obtain ⟨n, hn⟩ := hb.exists_eq_mul
  rw [hm, hn] at h
  rw [hm, hn]
  have hlt : m < n := by
    have hlt' := lt_of_mul_lt_mul_right h (two_zpow_pos _).le
    exact_mod_cast hlt'
  have hone : (1 : ℚ) ≤ n - m := by
    have hone' : 1 ≤ n - m := by omega
    exact_mod_cast hone'
  have hstep : (2 : ℚ) ^ (-1074 : ℤ) ≤ n * 2 ^ (-1074 : ℤ) - m * 2 ^ (-1074 : ℤ) := by
    rw [← sub_mul]
    exact le_mul_of_one_le_left (two_zpow_pos _).le hone
  exact (two_zpow_pos _).trans_le ((onGrid_two_zpow le_rfl).le_rounded hstep)

theorem rounded_sub_ne_zero (ha : OnGrid a) (hb : OnGrid b) (h : a ≠ b) : rounded (a - b) ≠ 0 := by
  rcases lt_or_gt_of_ne h with hlt | hgt
  · rw [← neg_sub b a, rounded_neg]
    exact neg_ne_zero.mpr (rounded_sub_pos ha hb hlt).ne'
  · exact (rounded_sub_pos hb ha hgt).ne'

end Milling.Binary64
