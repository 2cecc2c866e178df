import Milling.Proofs.Binary64.Value
/-!
Signs of computed doubles.

Sums, products and quotients of doubles that are not below zero are not below zero, also where they
overflow, vanish or are no number at all. No rounding matters here, as rounding keeps the sign.
-/

namespace Milling.Binary64

open Float.Model
open Float.Model.UnpackedFloat (Sign Accuracy)

/-- The form is zero, above zero or no number. -/
def NotNegative : UnpackedFloat → Prop
  | .infinity .negative => False
  | .finite .negative _ _ _ => False
  | _ => True

/-- The form is above zero. -/
def IsAboveZero : UnpackedFloat → Prop
  | .infinity .positive => True
  | .finite .positive _ _ _ => True
  | _ => False

theorem toModel_zero : (0.0 : Float).toModel = Float.Model.pack (.zero .positive) := by
  decide +kernel

theorem unpack_zero : (0.0 : Float).toModel.unpack = .zero .positive := by
  rw [toModel_zero, unpack_pack (u := .zero .positive) trivial trivial]

/-- What is not below zero is not negative by its form; this holds of NaN too. -/
theorem not_lt_zero_iff (x : Float) : ¬ x < 0.0 ↔ NotNegative x.toModel.unpack := by
  rw [lt_iff_compare, unpack_zero]
  cases x.toModel.unpack with
  | notANumber => simp [UnpackedFloat.compare, NotNegative]
  | infinity s => cases s <;> simp [UnpackedFloat.compare, NotNegative]
  | zero s => simp [UnpackedFloat.compare, NotNegative]
  | finite s m e hm => cases s <;> simp [UnpackedFloat.compare, NotNegative]

theorem zero_lt_iff (x : Float) : 0.0 < x ↔ IsAboveZero x.toModel.unpack := by
  rw [lt_iff_compare, unpack_zero]
  cases x.toModel.unpack with
  | notANumber => simp [UnpackedFloat.compare, IsAboveZero]
  | infinity s => cases s <;> simp [UnpackedFloat.compare, IsAboveZero]
  | zero s => simp [UnpackedFloat.compare, IsAboveZero]
  | finite s m e hm => cases s <;> simp [UnpackedFloat.compare, IsAboveZero]

theorem zero_le_iff (x : Float) :
    0.0 ≤ x ↔ NotNegative x.toModel.unpack ∧ x.toModel.unpack ≠ .notANumber := by
  rw [le_iff_compare, unpack_zero]
  cases x.toModel.unpack with
  | notANumber => simp [UnpackedFloat.compare]
  | infinity s => cases s <;> simp [UnpackedFloat.compare, NotNegative]
  | zero s => simp [UnpackedFloat.compare, NotNegative]
  | finite s m e hm => cases s <;> simp [UnpackedFloat.compare, NotNegative]

theorem not_lt_zero_of_zero_le {x : Float} (h : 0.0 ≤ x) : ¬ x < 0.0 :=
  (not_lt_zero_iff x).mpr ((zero_le_iff x).mp h).1

/-- What is less than something and not below zero is at least zero. -/
theorem zero_le_of_not_lt {x y : Float} (h : ¬ x < 0.0) (hy : x < y) : 0.0 ≤ x := by
  rw [zero_le_iff]
  refine ⟨(not_lt_zero_iff x).mp h, fun hnan => ?_⟩
  rw [lt_iff_compare, hnan] at hy
  cases hy

/-- What is not negative is no number, an infinity, a zero or a positive number. -/
theorem NotNegative.forms {u : UnpackedFloat} (h : NotNegative u) :
    u = .notANumber ∨ u = .infinity .positive ∨ (∃ s, u = .zero s) ∨
      ∃ m e hm, u = .finite .positive m e hm := by
  cases u with
  | notANumber => exact Or.inl rfl
  | infinity s =>
    cases s with
    | negative => cases h
    | positive => exact Or.inr (Or.inl rfl)
  | zero s => exact Or.inr (Or.inr (Or.inl ⟨s, rfl⟩))
  | finite s m e hm =>
    cases s with
    | negative => cases h
    | positive => exact Or.inr (Or.inr (Or.inr ⟨m, e, hm, rfl⟩))

theorem IsAboveZero.notNegative {u : UnpackedFloat} (h : IsAboveZero u) : NotNegative u := by
  cases u with
  | notANumber => cases h
  | infinity s => cases s <;> trivial
  | zero s => cases h
  | finite s m e hm => cases s <;> trivial

/-- What is at least something above zero is above zero. -/
theorem zero_lt_of_le {x y : Float} (hx : 0.0 < x) (h : x ≤ y) : 0.0 < y := by
  rw [zero_lt_iff] at hx ⊢
  obtain ⟨o, ho, hle⟩ := (le_iff_compare x y).mp h
  generalize x.toModel.unpack = u at *
  generalize y.toModel.unpack = w at *
  rcases hx.notNegative.forms with rfl | rfl | ⟨s, rfl⟩ | ⟨m, e, hm, rfl⟩
  · cases hx
  · cases w with
    | notANumber => cases ho
    | infinity t =>
      cases t with
      | negative =>
        cases ho
        cases hle
      | positive => trivial
    | _ =>
      cases ho
      cases hle
  · cases hx
  · cases w with
    | notANumber => cases ho
    | zero t =>
      cases ho
      cases hle
    | infinity t =>
      cases t with
      | negative =>
        cases ho
        cases hle
      | positive => trivial
    | finite t n d hn =>
      cases t with
      | negative =>
        cases ho
        cases hle
      | positive => trivial

/-! ### Packing and rounding -/

theorem notNegative_unpack_packComponents (e : BitVec 11) (m : BitVec 52) :
    NotNegative (UnpackedFloat.unpack Format.binary64
      (UnpackedFloat.packComponents Format.binary64 .positive e m)) := by
  rw [unpack_packComponents]
  split_ifs <;> trivial

theorem notNegative_pack {u : UnpackedFloat} (h : NotNegative u) :
    NotNegative (Float.Model.pack u).unpack := by
  cases u with
  | notANumber => exact notNegative_unpack_packComponents _ _
  | infinity s =>
    rw [unpack_pack (u := .infinity s) trivial trivial]
    exact h
  | zero s =>
    rw [unpack_pack (u := .zero s) trivial trivial]
    trivial
  | finite s m e hm =>
    cases s with
    | negative => cases h
    | positive =>
      change NotNegative (UnpackedFloat.unpack Format.binary64
        (UnpackedFloat.pack Format.binary64 (.finite .positive m e hm)))
      unfold UnpackedFloat.pack
      dsimp only
      split_ifs <;> exact notNegative_unpack_packComponents _ _

theorem notNegative_roundWithAccuracy (m : Nat) (e : Int) (a : Accuracy) :
    NotNegative (UnpackedFloat.roundWithAccuracy Format.binary64 .positive m e a) := by
  unfold UnpackedFloat.roundWithAccuracy
  dsimp only
  split_ifs <;> trivial

theorem notNegative_normalize {m : Int} (hm : 0 ≤ m) (e : Int) :
    NotNegative (UnpackedFloat.normalize Format.binary64 m e .positive) := by
  unfold UnpackedFloat.normalize
  split
  · rename_i hlt
    exact absurd (compare_lt_iff_lt.mp hlt) hm.not_gt
  · trivial
  · exact notNegative_roundWithAccuracy _ _ _

/-! ### Operations -/

/-- Products of factors that are not below zero are not below zero. -/
theorem not_mul_lt_zero {x y : Float} (hx : ¬ x < 0.0) (hy : ¬ y < 0.0) : ¬ x * y < 0.0 := by
  rw [not_lt_zero_iff] at hx hy ⊢
  refine notNegative_pack ?_
  generalize x.toModel.unpack = u at *
  generalize y.toModel.unpack = w at *
  rcases hx.forms with rfl | rfl | ⟨s, rfl⟩ | ⟨m, e, hm, rfl⟩ <;>
    rcases hy.forms with rfl | rfl | ⟨t, rfl⟩ | ⟨n, d, hn, rfl⟩ <;>
    first | trivial | exact notNegative_roundWithAccuracy _ _ _

/-- Quotients of what is not below zero and what is above zero are not below zero. -/
theorem not_div_lt_zero {x y : Float} (hx : ¬ x < 0.0) (hy : 0.0 < y) : ¬ x / y < 0.0 := by
  rw [not_lt_zero_iff] at hx ⊢
  rw [zero_lt_iff] at hy
  refine notNegative_pack ?_
  generalize x.toModel.unpack = u at *
  generalize y.toModel.unpack = w at *
  rcases hx.forms with rfl | rfl | ⟨s, rfl⟩ | ⟨m, e, hm, rfl⟩ <;>
    rcases hy.notNegative.forms with rfl | rfl | ⟨t, rfl⟩ | ⟨n, d, hn, rfl⟩ <;>
    first | trivial | exact notNegative_roundWithAccuracy _ _ _

theorem not_add_lt_zero {x y : Float} (hx : ¬ x < 0.0) (hy : ¬ y < 0.0) : ¬ x + y < 0.0 := by
  rw [not_lt_zero_iff] at hx hy ⊢
  refine notNegative_pack ?_
  generalize x.toModel.unpack = u at *
  generalize y.toModel.unpack = w at *
  rcases hx.forms with rfl | rfl | ⟨s, rfl⟩ | ⟨m, e, hm, rfl⟩ <;>
    rcases hy.forms with rfl | rfl | ⟨t, rfl⟩ | ⟨n, d, hn, rfl⟩ <;>
    first
    | trivial
    | exact notNegative_normalize (Int.add_nonneg (Int.natCast_nonneg _) (Int.natCast_nonneg _)) _
    | cases s <;> cases t <;> trivial

end Milling.Binary64
