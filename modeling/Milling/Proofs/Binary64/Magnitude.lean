import Milling.Binary64.Plane
import Milling.Proofs.Binary64.Arithmetic
import Milling.Proofs.Binary64.Order
/-!
A double is its magnitude with its sign.

Two doubles with the same unpacked form are the same (`eq_of_unpack`); there is only one NaN. So a
number other than NaN can be put together again from its sign bit and its magnitude
(`withSign_abs`), and a magnitude that is not zero is told by its value (`eq_abs_of_value`).
-/

namespace Milling.Binary64

open Float.Model
open Float.Model.UnpackedFloat (Sign)

theorem eq_of_unpack {x y : Float} (h : x.toModel.unpack = y.toModel.unpack) : x = y := by
  obtain ⟨⟨⟨bits⟩, hx⟩⟩ := x
  obtain ⟨⟨⟨bits'⟩, hy⟩⟩ := y
  have hbits : bits = bits' := (UnpackedFloat.unpack_inj_of_valid hx hy).mp h
  subst hbits
  rfl

theorem isNaN_iff (x : Float) : x.isNaN = true ↔ x.toModel.unpack = .notANumber := by
  change x.toModel.unpack.isNaN = true ↔ _
  cases x.toModel.unpack <;> simp [UnpackedFloat.isNaN]

/-- There are three doubles that are not finite. -/
theorem eq_of_not_isFinite {x : Float} (h : x.isFinite = false) :
    x = 1.0 / 0.0 ∨ x = -(1.0 / 0.0) ∨ x = 0.0 / 0.0 := by
  unfold Float.isFinite Float.Model.isFinite at h
  cases hu : x.toModel.unpack with
  | notANumber =>
    have hnan : (0.0 / 0.0 : Float).toModel = Float.Model.pack .notANumber := by decide +kernel
    refine Or.inr (Or.inr (eq_of_unpack ?_))
    rw [hu, hnan, unpack_pack (u := .notANumber) trivial trivial]
  | infinity s =>
    cases s with
    | positive => exact Or.inl (eq_of_unpack (hu.trans unpack_infinity.symm))
    | negative => exact Or.inr (Or.inl (eq_of_unpack (hu.trans unpack_neg_infinity.symm)))
  | zero s =>
    rw [hu] at h
    cases h
  | finite s m e hm =>
    rw [hu] at h
    cases h

theorem beq_infinity {x : Float} (h : x.isFinite = true) : (x == 1.0 / 0.0) = false := by
  obtain ⟨-, -, -, hbelow⟩ := compare_infinity h
  rw [Bool.eq_false_iff, Ne, beq_iff_compare, unpack_infinity, hbelow]
  nofun

/-! ### Signs -/

/-- The sign of a form; NaN has none. -/
def sign? : UnpackedFloat → Option Sign
  | .infinity s => some s
  | .zero s => some s
  | .finite s _ _ _ => some s
  | .notANumber => none

theorem topBit_packComponents (s : Sign) (e : BitVec 11) (m : BitVec 52) :
    BitVec.extractLsb' 63 1 (UnpackedFloat.packComponents Format.binary64 s e m) = s.toBitVec := by
  have hsign := @UnpackedFloat.unpackSign_packComponents Format.binary64 s e m
  rw [UnpackedFloat.unpackSign_def] at hsign
  exact hsign

theorem isMinus_packComponents (x : Float) {s : Sign} {e : BitVec 11} {m : BitVec 52}
    (h : x.toBits.toBitVec = UnpackedFloat.packComponents Format.binary64 s e m) :
    isMinus x = (s == .negative) := by
  have hsign : BitVec.extractLsb' 63 1 x.toBits.toBitVec = s.toBitVec :=
    (congrArg (BitVec.extractLsb' 63 1) h).trans (topBit_packComponents s e m)
  have htop : x.toBits.toNat / 2 ^ 63 % 2 = s.toBitVec.toNat := by
    rw [← hsign, BitVec.extractLsb'_toNat, Nat.shiftRight_eq_div_pow, UInt64.toNat_toBitVec]
  have hlt := x.toBits.toNat_lt
  have hbit : (x.toBits >>> 63).toNat = s.toBitVec.toNat := by
    have hcount : UInt64.toNat 63 % 64 = 63 := by decide
    rw [← htop, UInt64.toNat_shiftRight, Nat.shiftRight_eq_div_pow, hcount]
    omega
  have hone : x.toBits >>> 63 = 1 ↔ s.toBitVec.toNat = 1 := by
    rw [← UInt64.toNat_inj, hbit]
    rfl
  rw [isMinus, Bool.eq_iff_iff, beq_iff_eq, hone]
  cases s <;> decide

theorem isMinus_of_sign {x : Float} {s : Sign} (h : sign? x.toModel.unpack = some s) :
    isMinus x = (s == .negative) := by
  obtain ⟨t, e, m, hbits⟩ := exists_packComponents x.toBits.toBitVec
  have hform : x.toModel.unpack = UnpackedFloat.unpack Format.binary64 x.toBits.toBitVec := rfl
  rw [isMinus_packComponents x hbits]
  rw [hform, hbits, unpack_packComponents] at h
  split at h
  · split at h
    · rw [Option.some.inj h]
    · cases h
  split at h
  · split at h
    · rw [Option.some.inj h]
    · rw [Option.some.inj h]
  · rw [Option.some.inj h]

/-- The number with a minus sign if there is to be one. -/
def withSign (minus : Bool) (x : Float) : Float :=
  if minus then -x else x

/-- A number is its magnitude with its own sign. -/
theorem withSign_abs {x : Float} (h : x.isNaN = false) : withSign (isMinus x) x.abs = x := by
  have hform : x.toModel.unpack.isNaN = false := h
  apply eq_of_unpack
  have hsign : ∀ s, sign? x.toModel.unpack = some s →
      (withSign (isMinus x) x.abs).toModel.unpack =
        if s == .negative then x.toModel.unpack.abs.neg else x.toModel.unpack.abs := by
    intro s hs
    rw [isMinus_of_sign hs, withSign]
    split
    · rw [unpack_neg, unpack_abs]
    · rw [unpack_abs]
  cases hu : x.toModel.unpack with
  | notANumber =>
    rw [hu] at hform
    cases hform
  | infinity s =>
    rw [hsign s (by rw [hu]; rfl), hu]
    cases s <;> rfl
  | zero s =>
    rw [hsign s (by rw [hu]; rfl), hu]
    cases s <;> rfl
  | finite s m e hm =>
    rw [hsign s (by rw [hu]; rfl), hu]
    cases s <;> rfl

/-! ### Values -/

/-- All finite doubles are below the limit. -/
theorem abs_lt_limit {x : Float} {v : ℚ} (hx : value? x = some v) : |v| < limit := by
  obtain ⟨hc, hr⟩ := canonical_unpack x.toModel
  rcases unpack_of_value hx with ⟨-, -, rfl⟩ | ⟨s, m, e, hm, hu, rfl⟩
  · rw [abs_zero]
    exact limit_pos
  · rw [hu] at hc hr
    rw [abs_signed, abs_of_pos (magnitude_pos hm e)]
    exact magnitude_lt_limit hc.1 hr

/-- A magnitude that is not zero is told by its value. -/
theorem eq_abs_of_value {x y : Float} {v : ℚ} (hx : value? x = some v) (hne : v ≠ 0)
    (hy : value? y = some |v|) : y = x.abs := by
  have hpos : 0 < |v| := abs_pos.mpr hne
  obtain ⟨hc, -⟩ := canonical_unpack x.toModel
  obtain ⟨hc', -⟩ := canonical_unpack y.toModel
  apply eq_of_unpack
  rw [unpack_abs]
  rcases unpack_of_value hx with ⟨s, -, rfl⟩ | ⟨s, m, e, hm, hu, rfl⟩
  · exact absurd rfl hne
  rcases unpack_of_value hy with ⟨s', -, hzero⟩ | ⟨s', m', e', hm', hu', hvalue⟩
  · exact absurd hzero hpos.ne'
  have hpos' := magnitude_pos hm' e'
  obtain rfl : s' = .positive := by
    cases s'
    · rw [hvalue, signed] at hpos
      linarith
    · rfl
  rw [abs_signed, abs_of_pos (magnitude_pos hm e), signed] at hvalue
  rw [hu] at hc ⊢
  rw [hu'] at hc' ⊢
  -- Of two canonical forms with one value neither has the lesser exponent or mantissa.
  have hlt := (mantissa_exponent_lt_iff hc hc').not.mpr hvalue.not_lt
  have hgt := (mantissa_exponent_lt_iff hc' hc).not.mpr hvalue.not_gt
  obtain ⟨rfl, rfl⟩ : m' = m ∧ e' = e := by omega
  rfl

end Milling.Binary64
