import Mathlib
/-!
The unpacked form of a double and its 64 bits.

Every double unpacks to a canonical form whose exponent is in range, and packing such a form loses
nothing. Packing a canonical form whose exponent is too large gives an infinity.
-/

namespace Milling.Binary64

open Float.Model
open Float.Model.UnpackedFloat (Sign)

/-- The mantissa fills the width of a double, or the exponent is the least. -/
def Canonical : UnpackedFloat → Prop
  | .finite _ m e _ => m < 2 ^ 53 ∧ -1074 ≤ e ∧ (2 ^ 52 ≤ m ∨ e = -1074)
  | _ => True

/-- The exponent is one that a double can have. -/
def InRange : UnpackedFloat → Prop
  | .finite _ _ e _ => e ≤ 971
  | _ => True

/-! ### Fields -/

theorem toNat_one_append (m : BitVec 52) : (1#1 ++ m).toNat = 2 ^ 52 + m.toNat := by
  rw [BitVec.toNat_append, ← Nat.shiftLeft_add_eq_or_of_lt m.isLt]
  simp [Nat.shiftLeft_eq]

/-- What the fields of 64 bits say. -/
theorem unpack_packComponents (s : Sign) (e : BitVec 11) (m : BitVec 52) :
    UnpackedFloat.unpack Format.binary64 (UnpackedFloat.packComponents Format.binary64 s e m) =
      if e = -1#11 then (if m = 0#52 then .infinity s else .notANumber)
      else if e = 0#11 then
        if h : m = 0#52 then .zero s
        else .finite s m.toNat (-1074)
          (by simpa [BitVec.toNat_pos, BitVec.pos_iff_ne_zero] using h)
      else .finite s (1#1 ++ m).toNat ((e.toNat : Int) - 1075)
        (by rw [toNat_one_append]; omega) := by
  unfold UnpackedFloat.unpack
  dsimp only
  rw [UnpackedFloat.unpackExponent_packComponents]
  simp only [UnpackedFloat.unpackSign_packComponents, Sign.ofBitVec_toBitVec,
    UnpackedFloat.unpackMantissa_packComponents]
  split
  · rfl
  · split
    · rename_i hzero
      simp [hzero, Format.exponentBias]
    · simp [Format.exponentBias]

/-- Every 64 bits are packed from their fields. -/
theorem exists_packComponents (b : BitVec 64) :
    ∃ (s : Sign) (e : BitVec 11) (m : BitVec 52),
      b = UnpackedFloat.packComponents Format.binary64 s e m :=
  ⟨_, _, _, (@UnpackedFloat.packComponents_unpackSign_unpackExponent_unpackMantissa
    Format.binary64 b).symm⟩

/-! ### Unpacking -/

/-- What is unpacked of a double always has the mantissa and the exponent of one. -/
theorem canonical_unpack (x : Float.Model) : Canonical x.unpack ∧ InRange x.unpack := by
  obtain ⟨s, e, m, hbits⟩ := exists_packComponents x.toBits.toBitVec
  have he := e.isLt
  have hm := m.isLt
  rw [Float.Model.unpack, hbits, unpack_packComponents]
  by_cases hones : e = -1#11
  · rw [if_pos hones]
    split <;> exact ⟨trivial, trivial⟩
  rw [if_neg hones]
  by_cases hzero : e = 0#11
  · rw [if_pos hzero]
    split
    · exact ⟨trivial, trivial⟩
    · exact ⟨⟨by omega, Int.le_refl _, Or.inr rfl⟩, (by decide : (-1074 : Int) ≤ 971)⟩
  · have hlow : e.toNat ≠ 0 := fun h => hzero (BitVec.eq_of_toNat_eq h)
    have hhigh : e.toNat ≠ 2047 := fun h => hones (BitVec.eq_of_toNat_eq h)
    rw [if_neg hzero]
    simp only [Canonical, InRange, toNat_one_append]
    omega

/-! ### Packing -/

/-- A mantissa of full width is packed without its leading digit. -/
theorem pack_normal {s : Sign} {m : Nat} {e : Int} (hm : 0 < m) (hlow : 2 ^ 52 ≤ m)
    (hhigh : m < 2 ^ 53) (he : -1074 ≤ e) (he' : e ≤ 971) :
    UnpackedFloat.pack Format.binary64 (.finite s m e hm) =
      UnpackedFloat.packComponents Format.binary64 s (BitVec.ofNat 11 (e + 1075).toNat)
        (BitVec.ofNat 52 m) := by
  have hlog : m.log2 = 52 := (Nat.log2_eq_iff (Nat.ne_of_gt hm)).mpr ⟨hlow, hhigh⟩
  have hbias : (e + Format.binary64.exponentBias +
      Format.binary64.mantissaBitsWithoutImplicit).toNat = (e + 1075).toNat := by
    simp only [Format.exponentBias]
    omega
  unfold UnpackedFloat.pack
  dsimp only
  rw [hbias, if_neg (by omega), if_pos]
  rw [hlog]
  rfl

theorem pack_subnormal {s : Sign} {m : Nat} (hm : 0 < m) (hlow : m < 2 ^ 52) :
    UnpackedFloat.pack Format.binary64 (.finite s m (-1074) hm) =
      UnpackedFloat.packComponents Format.binary64 s 0#11 (BitVec.ofNat 52 m) := by
  have hlog : m.log2 < 52 := (Nat.log2_lt (Nat.ne_of_gt hm)).mpr hlow
  have hwidth : m.log2 + 1 ≠ Format.binary64.mantissaBits := by
    simp only [Format.mantissaBits]
    omega
  unfold UnpackedFloat.pack
  dsimp only
  rw [if_neg (by decide), if_neg hwidth]

/-- Packing loses nothing of a canonical form whose exponent is in range. -/
theorem unpack_pack {u : UnpackedFloat} (hc : Canonical u) (hr : InRange u) :
    (Float.Model.pack u).unpack = u := by
  cases u with
  | notANumber => rfl
  | infinity s => cases s <;> rfl
  | zero s => cases s <;> rfl
  | finite s m e hm =>
    obtain ⟨hm53, he, hfull⟩ := hc
    have he' : e ≤ 971 := hr
    change UnpackedFloat.unpack Format.binary64 (UnpackedFloat.pack Format.binary64 _) = _
    by_cases hlow : 2 ^ 52 ≤ m
    · have hexp : (BitVec.ofNat 11 (e + 1075).toNat).toNat = (e + 1075).toNat := by
        rw [BitVec.toNat_ofNat, Nat.mod_eq_of_lt (by omega)]
      have hzero : BitVec.ofNat 11 (e + 1075).toNat ≠ 0#11 := by
        intro h
        rw [h, BitVec.toNat_ofNat] at hexp
        omega
      have hones : BitVec.ofNat 11 (e + 1075).toNat ≠ -1#11 := by
        intro h
        rw [h, show (-1#11).toNat = 2047 from rfl] at hexp
        omega
      rw [pack_normal hm hlow hm53 he he', unpack_packComponents, if_neg hones, if_neg hzero]
      congr 1
      · rw [toNat_one_append, BitVec.toNat_ofNat]
        omega
      · rw [hexp]
        omega
    · have hmant : (BitVec.ofNat 52 m).toNat = m := by
        rw [BitVec.toNat_ofNat, Nat.mod_eq_of_lt (by omega)]
      have hne : BitVec.ofNat 52 m ≠ 0#52 := by
        intro h
        rw [h, BitVec.toNat_ofNat] at hmant
        omega
      obtain rfl : e = -1074 := by omega
      rw [pack_subnormal hm (by omega), unpack_packComponents, if_neg (by decide), if_pos rfl,
        dif_neg hne]
      congr 1

/-- A form with too large an exponent is packed as an infinity. -/
theorem unpack_pack_of_overflow {s : Sign} {m : Nat} {e : Int} (hm : 0 < m) (he : 972 ≤ e) :
    (Float.Model.pack (.finite s m e hm)).unpack = .infinity s := by
  unfold Float.Model.unpack Float.Model.pack UnpackedFloat.pack
  dsimp only [Format.exponentBias]
  rw [if_pos (by simp; omega)]
  cases s <;> rfl

end Milling.Binary64
