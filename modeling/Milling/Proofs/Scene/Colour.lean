import Milling.Proofs.Binary64.Fraction
import Milling.Proofs.Program.Bounds
import Milling.Scene.Depth
/-!
Colours by height.

A colour on the ramp lies between two stops that follow each other, channel by channel (`OnRamp`).
The box of a compiled text is finite, but the numbers that are computed from it may not be: where
both the height of the box and the way from its top down to `z` are beyond the doubles, their
quotient is no number, and the colour is black. Everywhere else it is on the ramp
(`colour_compile`).
-/

namespace Milling

open Binary64

namespace Rgb

/-- A channel is between two others, in either order. -/
def IsBetween (n a b : UInt8) : Prop :=
  a ≤ n ∧ n ≤ b ∨ b ≤ n ∧ n ≤ a

instance (n a b : UInt8) : Decidable (IsBetween n a b) := by
  unfold IsBetween; infer_instance

/-- A colour is between two others in each channel. -/
structure Between (c a b : Rgb) : Prop where
  r : IsBetween c.r a.r b.r
  g : IsBetween c.g a.g b.g
  b : IsBetween c.b a.b b.b

def black : Rgb := ⟨0, 0, 0⟩

/-! ### Mixing -/

theorem value_channel (a : UInt8) : value? (Float.ofNat a.toNat) = some (a.toNat : ℚ) :=
  (isNearest_ofNat a.toNat).value_natCast (a.toNat_lt.trans (by norm_num))

theorem onGrid_channel (a : UInt8) : OnGrid (a.toNat : ℚ) :=
  onGrid_of_value (value_channel a)

section Mix

variable (a b : UInt8) {t : Float} {τ : ℚ}

theorem abs_channel_le : |(a.toNat : ℚ)| ≤ 2 ^ (8 : ℤ) := by
  have hlt : (a.toNat : ℚ) < 2 ^ 8 := by exact_mod_cast a.toNat_lt
  rw [Nat.abs_cast]
  exact hlt.le

theorem abs_difference_le : |(b.toNat - a.toNat : ℚ)| ≤ 2 ^ (8 : ℤ) := by
  have ha := abs_channel_le a
  have hb := abs_channel_le b
  rw [Nat.abs_cast] at ha hb
  rw [abs_le]
  have ha' : (0 : ℚ) ≤ a.toNat := Nat.cast_nonneg _
  have hb' : (0 : ℚ) ≤ b.toNat := Nat.cast_nonneg _
  constructor <;> linarith

theorem value_difference :
    value? (Float.ofNat b.toNat - Float.ofNat a.toNat) = some (b.toNat - a.toNat : ℚ) := by
  have hgrid : OnGrid ((b.toNat - a.toNat : ℤ) : ℚ) := by
    refine onGrid_intCast (abs_lt.mpr ?_)
    have ha := a.toNat_lt
    have hb := b.toNat_lt
    omega
  have hnear := isNearest_sub (value_channel b) (value_channel a)
  have hvalue := (hnear.value_of_abs_le (by decide) (by decide) (abs_difference_le a b)).1
  push_cast at hgrid
  rwa [hgrid.rounded_eq] at hvalue

/-- A part of the difference of two channels, from none to all of it. -/
theorem part_mem (hlow : 0 ≤ τ) (hhigh : τ ≤ 1) :
    ((b.toNat - a.toNat) * τ : ℚ) ∈ Set.uIcc (0 : ℚ) (b.toNat - a.toNat) := by
  rw [Set.mem_uIcc]
  rcases le_total (a.toNat : ℚ) b.toNat with hle | hle
  · have hdiff := sub_nonneg.mpr hle
    exact .inl ⟨mul_nonneg hdiff hlow, mul_le_of_le_one_right hdiff hhigh⟩
  · have hdiff := sub_nonpos.mpr hle
    exact .inr ⟨le_mul_of_le_one_right hdiff hhigh, mul_nonpos_of_nonpos_of_nonneg hdiff hlow⟩

/-- The mixture of two channels, before it is made an integer, lies between them. -/
theorem exists_mixture (ht : value? t = some τ) (hlow : 0 ≤ τ) (hhigh : τ ≤ 1) :
    ∃ v : ℚ, value? (Float.ofNat a.toNat + (Float.ofNat b.toNat - Float.ofNat a.toNat) * t) =
        some v ∧
      v ∈ Set.uIcc (a.toNat : ℚ) b.toNat ∧ (τ = 0 → v = a.toNat) ∧ (τ = 1 → v = b.toNat) := by
  have hdiff := value_difference a b
  have hpart := part_mem a b hlow hhigh
  have hprod : value? ((Float.ofNat b.toNat - Float.ofNat a.toNat) * t) =
      some (rounded ((b.toNat - a.toNat) * τ)) := by
    have habs := abs_le_of_mem_uIcc hpart (by norm_num) (abs_difference_le a b)
    exact ((isNearest_mul hdiff ht).value_of_abs_le (by decide) (by decide) habs).1
  have hsum : (a.toNat + rounded ((b.toNat - a.toNat) * τ) : ℚ) ∈
      Set.uIcc (a.toNat : ℚ) b.toNat := by
    have hround := rounded_mem_uIcc onGrid_zero (onGrid_of_value hdiff) hpart
    rw [Set.mem_uIcc] at hround ⊢
    rcases hround with ⟨h, h'⟩ | ⟨h, h'⟩
    · exact .inl ⟨by linarith, by linarith⟩
    · exact .inr ⟨by linarith, by linarith⟩
  have habs := abs_le_of_mem_uIcc hsum (abs_channel_le a) (abs_channel_le b)
  have hnear := isNearest_add (value_channel a) hprod
  refine ⟨_, (hnear.value_of_abs_le (by decide) (by decide) habs).1,
    rounded_mem_uIcc (onGrid_channel a) (onGrid_channel b) hsum, ?_, ?_⟩
  · rintro rfl
    rw [mul_zero, rounded_zero, add_zero, (onGrid_channel a).rounded_eq]
  · rintro rfl
    rw [mul_one, (onGrid_of_value hdiff).rounded_eq, add_sub_cancel, (onGrid_channel b).rounded_eq]

/-- A mixture is between the two channels, and is one of them at either end. -/
theorem mix_spec (ht : value? t = some τ) (hlow : 0 ≤ τ) (hhigh : τ ≤ 1) :
    IsBetween (mix a b t) a b ∧ (τ = 0 → mix a b t = a) ∧ (τ = 1 → mix a b t = b) := by
  obtain ⟨v, hv, hmem, hzero, hone⟩ := exists_mixture a b ht hlow hhigh
  have hfloor := floor_mem_uIcc hmem
  rw [Set.mem_uIcc] at hfloor
  have hmix : (mix a b t).toNat = ⌊v + 1 / 2⌋₊ := by
    have ha := a.toNat_lt
    have hb := b.toNat_lt
    rw [mix, nearestNat_of_value hv, UInt8.toNat_ofNat']
    omega
  have hend : ∀ c : UInt8, v = c.toNat → mix a b t = c := by
    rintro c rfl
    have hself := floor_mem_uIcc (Set.left_mem_uIcc (a := (c.toNat : ℚ)) (b := c.toNat))
    rw [Set.uIcc_self, Set.mem_singleton_iff] at hself
    exact UInt8.toNat_inj.mp (hmix.trans hself)
  refine ⟨?_, fun h => hend a (hzero h), fun h => hend b (hone h)⟩
  rw [← hmix] at hfloor
  exact hfloor

/-- A blend at a fraction is between its colours, and at the ends it is one of them. -/
theorem blend_spec (c c' : Rgb) (ht : value? t = some τ) (hlow : 0 ≤ τ) (hhigh : τ ≤ 1) :
    (c.blend c' t).Between c c' ∧ (τ = 0 → c.blend c' t = c) ∧ (τ = 1 → c.blend c' t = c') := by
  obtain ⟨hr, hr0, hr1⟩ := mix_spec c.r c'.r ht hlow hhigh
  obtain ⟨hg, hg0, hg1⟩ := mix_spec c.g c'.g ht hlow hhigh
  obtain ⟨hb, hb0, hb1⟩ := mix_spec c.b c'.b ht hlow hhigh
  refine ⟨⟨hr, hg, hb⟩, fun h => ?_, fun h => ?_⟩
  · rw [blend, hr0 h, hg0 h, hb0 h]
  · rw [blend, hr1 h, hg1 h, hb1 h]

theorem mix_of_isNaN (ht : t.isNaN = true) : mix a b t = 0 := by
  have hnan := isNaN_add_right (Float.ofNat a.toNat)
    (isNaN_mul_right (Float.ofNat b.toNat - Float.ofNat a.toNat) ht)
  rw [mix, nearestNat_of_isNaN hnan]
  rfl

end Mix

end Rgb

namespace Depth

/-! ### The ramp -/

section Ramp

variable {depth : Float} {d : ℚ}

/-- Four times a fraction, up to rounding. -/
theorem exists_scaled (hd : value? depth = some d) (hlow : 0 ≤ d) (hhigh : d ≤ 1) :
    ∃ s, value? (depth * 4.0) = some s ∧ 0 ≤ s ∧ s ≤ 4 ∧ (d = 0 → s = 0) ∧ (d = 1 → s = 4) := by
  have hfour : OnGrid 4 := onGrid_of_value value_four
  have habs : |d * 4| ≤ 2 ^ (2 : ℤ) := by
    rw [abs_of_nonneg (by linarith)]
    norm_num
    linarith
  have hnear := isNearest_mul hd value_four
  refine ⟨_, (hnear.value_of_abs_le (by decide) (by decide) habs).1, rounded_nonneg (by linarith),
    hfour.rounded_le (by linarith), ?_, ?_⟩
  · rintro rfl
    rw [zero_mul, rounded_zero]
  · rintro rfl
    rw [one_mul, hfour.rounded_eq]

/-- The last of the four parts of the ramp takes in its end. -/
theorem part_bounds {s : ℚ} (hlow : 0 ≤ s) (hhigh : s ≤ 4) :
    ((min ⌊s⌋₊ 3 : ℕ) : ℚ) ≤ s ∧ s ≤ (min ⌊s⌋₊ 3 : ℕ) + 1 := by
  rcases le_total ⌊s⌋₊ 3 with hle | hle
  · rw [min_eq_left hle]
    exact ⟨Nat.floor_le hlow, (Nat.lt_floor_add_one s).le⟩
  · rw [min_eq_right hle]
    constructor
    · exact (Nat.le_floor_iff hlow).mp hle
    · norm_num
      exact hhigh

/-- The stops around a fraction and where it is between them. -/
theorem exists_stops (hd : value? depth = some d) (hlow : 0 ≤ d) (hhigh : d ≤ 1) :
    ∃ k < 4, ∃ t τ, ramp depth = (stop k).blend (stop (k + 1)) t ∧ value? t = some τ ∧
      0 ≤ τ ∧ τ ≤ 1 ∧ (d = 0 → k = 0 ∧ τ = 0) ∧ (d = 1 → k = 3 ∧ τ = 1) := by
  obtain ⟨s, hs, hnonneg, hfour, hzero, hone⟩ := exists_scaled hd hlow hhigh
  obtain ⟨hle, hnext⟩ := part_bounds hnonneg hfour
  have hramp : ramp depth = (stop (min ⌊s⌋₊ 3)).blend (stop (min ⌊s⌋₊ 3 + 1))
      (depth * 4.0 - Float.ofNat (min ⌊s⌋₊ 3)) := by
    rw [ramp, floorNat_of_value hs]
  have hgrid : OnGrid 1 := onGrid_of_value value_one
  have habs : |s - (min ⌊s⌋₊ 3 : ℕ)| ≤ 2 ^ (0 : ℤ) := by
    rw [abs_of_nonneg (sub_nonneg.mpr hle), zpow_zero]
    linarith
  have hrest := isNearest_sub hs ((isNearest_ofNat (min ⌊s⌋₊ 3)).value_natCast (by omega))
  refine ⟨_, by omega, _, _, hramp, (hrest.value_of_abs_le (by decide) (by decide) habs).1,
    rounded_nonneg (sub_nonneg.mpr hle), hgrid.rounded_le (by linarith), fun h => ?_, fun h => ?_⟩
  · rw [hzero h, Nat.floor_zero]
    exact ⟨rfl, by norm_num [rounded_zero]⟩
  · have hfloor : ⌊(4 : ℚ)⌋₊ = 4 := Nat.floor_ofNat 4
    rw [hone h, hfloor]
    refine ⟨rfl, ?_⟩
    norm_num
    exact hgrid.rounded_eq

/-- Fractions have a colour between two stops, and those at the ends have that of an end. -/
theorem ramp_spec (hd : value? depth = some d) (hlow : 0 ≤ d) (hhigh : d ≤ 1) :
    (∃ k < 4, (ramp depth).Between (stop k) (stop (k + 1))) ∧ (d = 0 → ramp depth = stop 0) ∧
      (d = 1 → ramp depth = stop 4) := by
  obtain ⟨k, hk, t, τ, hramp, ht, hτlow, hτhigh, hzero, hone⟩ := exists_stops hd hlow hhigh
  obtain ⟨hbetween, hfirst, hlast⟩ := Rgb.blend_spec (stop k) (stop (k + 1)) ht hτlow hτhigh
  rw [hramp]
  refine ⟨⟨k, hk, hbetween⟩, fun h => ?_, fun h => ?_⟩
  · obtain ⟨rfl, hτ⟩ := hzero h
    exact hfirst hτ
  · obtain ⟨rfl, hτ⟩ := hone h
    exact hlast hτ

theorem ramp_of_isNaN (h : depth.isNaN = true) : ramp depth = .black := by
  have hscaled := isNaN_mul_left h 4.0
  have hrest := isNaN_sub_left hscaled (Float.ofNat 0)
  rw [ramp, floorNat_of_isNaN hscaled]
  change Rgb.blend (stop 0) (stop 1) (depth * 4.0 - Float.ofNat 0) = _
  rw [Rgb.blend, Rgb.mix_of_isNaN _ _ hrest, Rgb.mix_of_isNaN _ _ hrest,
    Rgb.mix_of_isNaN _ _ hrest]
  rfl

end Ramp

/-! ### Heights -/

/-- The colour of a height in a box is between two stops of the ramp; it is the first stop in a flat
box and from the top on, and the last one from the bottom of another box on. -/
structure OnRamp (z : Float) (b : Box) : Prop where
  between : ∃ k < 4, (colour z b).Between (stop k) (stop (k + 1))
  top : b.max.z ≤ b.min.z ∨ b.max.z ≤ z → colour z b = stop 0
  bottom : b.min.z < b.max.z → z ≤ b.min.z → colour z b = stop 4

/-- Neither the height of the box nor the way from its top to `z` is within the finite doubles. -/
def Overflows (z : Float) (b : Box) : Prop :=
  (b.max.z - b.min.z).isFinite = false ∧ (b.max.z - z).isFinite = false

section Height

variable {z : Float} {b : Box} {top bottom v : ℚ}

/-- A flat box has the colour of the top throughout. -/
theorem colour_of_flat (htop : value? b.max.z = some top) (hbottom : value? b.min.z = some bottom)
    (hflat : top ≤ bottom) : colour z b = stop 0 := by
  have hrange : b.max.z - b.min.z ≤ 0.0 :=
    (isNearest_sub htop hbottom).le_zero_iff.mpr (onGrid_zero.rounded_le (sub_nonpos.mpr hflat))
  unfold colour
  rw [if_pos]
  rw [decide_eq_true hrange, Bool.true_or]

theorem colour_of_lt (htop : value? b.max.z = some top) (hbottom : value? b.min.z = some bottom)
    (hz : value? z = some v) (hlt : bottom < top) :
    colour z b = ramp (clamp ((b.max.z - z) / (b.max.z - b.min.z)) 0.0 1.0) := by
  have hrange : ¬ b.max.z - b.min.z ≤ 0.0 := by
    rw [(isNearest_sub htop hbottom).le_zero_iff, not_le]
    exact rounded_sub_pos (onGrid_of_value hbottom) (onGrid_of_value htop) hlt
  unfold colour
  rw [if_neg]
  rw [decide_eq_false hrange, isFinite_of_value hz]
  nofun

/-- Unless both sides of the quotient are infinite, it is beyond 0 or 1 where `z` is beyond the top
or the bottom. -/
theorem exists_quotient (htop : value? b.max.z = some top)
    (hbottom : value? b.min.z = some bottom) (hz : value? z = some v) (hlt : bottom < top)
    (hover : ¬ Overflows z b) :
    ∃ w, IsNearest ((b.max.z - z) / (b.max.z - b.min.z)) w ∧ (top ≤ v → w ≤ 0) ∧
      (v ≤ bottom → 1 ≤ w) := by
  have hgap := isNearest_sub htop hz
  have hrange := isNearest_sub htop hbottom
  have hpos := rounded_sub_pos (onGrid_of_value hbottom) (onGrid_of_value htop) hlt
  cases hfinite : (b.max.z - b.min.z).isFinite with
  | true =>
    obtain ⟨w, hw, hzero, hone⟩ :=
      isNearest_quotient hgap (hrange.value_of_isFinite hfinite).1 hpos
    exact ⟨w, hw, fun h => hzero (sub_nonpos.mpr h), fun h => hone (sub_le_sub_left h top)⟩
  | false =>
    have hgapFinite : (b.max.z - z).isFinite = true :=
      Bool.eq_true_of_not_eq_false fun h => hover ⟨hfinite, h⟩
    obtain ⟨hvalue, hsmall⟩ := hgap.value_of_isFinite hgapFinite
    obtain ⟨s, hs⟩ := unpack_of_not_isFinite hfinite hrange.isNaN_eq
    refine ⟨0, isNearest_zero (value?_div_infinity hvalue hs), fun _ => le_rfl, fun h => ?_⟩
    -- From the bottom on the way is no shorter than the height, which is out of range.
    have hlong := rounded_mono (sub_le_sub_left h top)
    have hshort : |rounded (top - bottom)| < limit := by
      rw [abs_of_pos hpos]
      exact hlong.trans_lt ((le_abs_self _).trans_lt hsmall)
    rw [isFinite_of_value (hrange.value hshort)] at hfinite
    cases hfinite

/-- Unless both differences overflow, every height has its place on the ramp. -/
theorem onRamp_of_not_overflows (htop : value? b.max.z = some top)
    (hbottom : value? b.min.z = some bottom) (hz : value? z = some v)
    (hover : ¬ Overflows z b) : OnRamp z b := by
  rcases le_or_gt top bottom with hflat | hlt
  · have hcolour := colour_of_flat (z := z) htop hbottom hflat
    refine ⟨⟨0, by decide, ?_⟩, fun _ => hcolour, fun hhigh => ?_⟩
    · rw [hcolour]
      exact ⟨.inr (by decide), .inr (by decide), .inr (by decide)⟩
    · rw [lt_iff_of_value hbottom htop] at hhigh
      exact absurd hhigh hflat.not_gt
  · obtain ⟨w, hw, hzero, hone⟩ := exists_quotient htop hbottom hz hlt hover
    obtain ⟨d, hd, hlimited⟩ := exists_limited hw
    obtain ⟨hbetween, hfirst, hlast⟩ := ramp_spec hd hlimited.nonneg hlimited.le_one
    rw [← colour_of_lt htop hbottom hz hlt] at hbetween hfirst hlast
    refine ⟨hbetween, fun htopmost => ?_, fun _ hlow => ?_⟩
    · rw [le_iff_of_value htop hbottom, le_iff_of_value htop hz] at htopmost
      exact hfirst (hlimited.eq_zero (hzero (htopmost.resolve_left hlt.not_ge)))
    · rw [le_iff_of_value hz hbottom] at hlow
      exact hlast (hlimited.eq_one (hone hlow))

/-- If both differences overflow, their quotient is no number and the colour is black. -/
theorem colour_of_overflows (htop : value? b.max.z = some top)
    (hbottom : value? b.min.z = some bottom) (hz : value? z = some v) (hle : bottom ≤ top)
    (hover : Overflows z b) : colour z b = .black := by
  obtain ⟨hrange, hgap⟩ := hover
  obtain ⟨s, hs⟩ := unpack_of_not_isFinite hrange (isNearest_sub htop hbottom).isNaN_eq
  obtain ⟨t, ht⟩ := unpack_of_not_isFinite hgap (isNearest_sub htop hz).isNaN_eq
  have hlt : bottom < top := by
    refine lt_of_le_of_ne hle ?_
    rintro rfl
    have hnear := isNearest_sub htop hbottom
    rw [sub_self] at hnear
    rw [isFinite_of_value (hnear.value abs_rounded_zero_lt)] at hrange
    cases hrange
  have hquot := isNaN_div_infinity ht hs
  rw [colour_of_lt htop hbottom hz hlt, clamp_of_isNaN hquot, ramp_of_isNaN hquot]

/-- Every stop has some red. -/
theorem not_onRamp_of_black (h : colour z b = .black) : ¬ OnRamp z b := by
  rintro ⟨⟨k, hk, hbetween⟩, -, -⟩
  have hred : ∀ k < 4, ¬ Rgb.IsBetween 0 (stop k).r (stop (k + 1)).r := by decide
  rw [h] at hbetween
  exact hred k hk hbetween.r

end Height

/-! ### Compiled programs -/

open Program

/-- The box of a program has heights with values. -/
theorem exists_heights (source : String) :
    ∃ bottom top, value? (compile source).bounds.min.z = some bottom ∧
      value? (compile source).bounds.max.z = some top ∧ bottom ≤ top := by
  have hfinite : (compile source).bounds.min.z.isFinite = true ∧
      (compile source).bounds.max.z.isFinite = true ∧
        (compile source).bounds.min.z ≤ (compile source).bounds.max.z := by
    by_cases hstill : (compile source).size = 1
    · rw [bounds_eq, if_pos hstill]
      decide +kernel
    · have hfits := fits_of_moves hstill
      exact ⟨Point.isFinite_iff.mp hfits.min_isFinite .z, Point.isFinite_iff.mp hfits.max_isFinite .z,
        hfits.ordered .z⟩
  obtain ⟨hmin, hmax, hle⟩ := hfinite
  obtain ⟨bottom, hbottom⟩ := (isFinite_iff _).mp hmin
  obtain ⟨top, htop⟩ := (isFinite_iff _).mp hmax
  exact ⟨bottom, top, hbottom, htop, (le_iff_of_value hbottom htop).mp hle⟩

/-- In the box of every compiled text the colour of a height is on the ramp, unless neither the
height of the box nor the way from its top is within the finite doubles: then it is black. -/
theorem colour_compile (source : String) {z : Float} (hz : z.isFinite = true) :
    let b := (compile source).bounds
    (OnRamp z b ↔ ¬ Overflows z b) ∧ (Overflows z b → colour z b = .black) := by
  obtain ⟨bottom, top, hbottom, htop, hle⟩ := exists_heights source
  obtain ⟨v, hv⟩ := (isFinite_iff z).mp hz
  have hblack := colour_of_overflows htop hbottom hv hle
  refine ⟨⟨?_, onRamp_of_not_overflows htop hbottom hv⟩, hblack⟩
  exact fun honRamp hover => not_onRamp_of_black (hblack hover) honRamp

/-- The ground of a hole has the last colour. -/
theorem colour_compile_hole :
    (-2.0 : Float).isFinite = true ∧ ¬ Overflows (-2.0) (compile "G1 Z-2").bounds ∧
      colour (-2.0) (compile "G1 Z-2").bounds = stop 4 := by
  have hz : (-2.0 : Float).isFinite = true := by decide +kernel
  have hover : ¬ Overflows (-2.0) (compile "G1 Z-2").bounds := by
    have hrange : ((compile "G1 Z-2").bounds.max.z - (compile "G1 Z-2").bounds.min.z).isFinite =
        true := by
      decide +kernel
    rintro ⟨hinfinite, -⟩
    rw [hrange] at hinfinite
    cases hinfinite
  have honRamp := (colour_compile "G1 Z-2" hz).1.mpr hover
  exact ⟨hz, hover, honRamp.bottom (by decide +kernel) (by decide +kernel)⟩

/-- Two moves, to either end of the finite doubles. -/
def steepMoves : List Char :=
  "G1 Z1".toList ++ List.replicate 308 '0' ++ "\nZ-1".toList ++ List.replicate 308 '0'

/-- The ground of so deep a hole is black and not red. -/
theorem not_onRamp_steepMoves :
    let b := (compile (String.ofList steepMoves)).bounds
    let z := -1e308
    z.isFinite = true ∧ b.min.z < b.max.z ∧ z ≤ b.min.z ∧ colour z b = .black ∧ ¬ OnRamp z b := by
  intro b z
  have hb : b = (ofSteps (Machine.initial.steps ((steepMoves.splitOn '\n').zipIdx))).bounds := by
    rw [← numberedLines_ofList, ← compile_eq_ofSteps]
  have hdeep : b.min.z < b.max.z ∧ z ≤ b.min.z ∧ colour z b = .black := by
    rw [hb]
    decide +kernel
  obtain ⟨hheight, hground, hblack⟩ := hdeep
  exact ⟨by decide +kernel, hheight, hground, hblack, not_onRamp_of_black hblack⟩

end Depth

end Milling
