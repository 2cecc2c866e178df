import Milling.Playback
import Milling.Proofs.Binary64.Literal
import Milling.Proofs.Binary64.Order
import Milling.Proofs.Binary64.Sign
import Milling.Proofs.Timing
/-!
What playback preserves.

The speed stays within its range under doubling and halving (`IsSpeed`), and the tool stays on the
toolpath, between its point and the next (`Placed`), whatever index, fraction or elapsed time comes
from outside.
-/

namespace Milling.Playback

open Binary64

/-! ### Speed -/

/-- A finite number in the range of speeds. -/
def IsSpeed (x : Float) : Prop :=
  ∃ v, value? x = some v ∧ 1 / 4 ≤ v ∧ v ≤ 4

theorem value_leastSpeed : value? leastSpeed = some (1 / 4) := by
  have h : hasValue leastSpeed 1 4 = true := by decide +kernel
  exact_mod_cast value?_of_hasValue h (by decide)

theorem value_greatestSpeed : value? greatestSpeed = some 4 :=
  value_four

theorem isSpeed_leastSpeed : IsSpeed leastSpeed :=
  ⟨1 / 4, value_leastSpeed, le_rfl, by norm_num⟩

theorem isSpeed_greatestSpeed : IsSpeed greatestSpeed :=
  ⟨4, value_greatestSpeed, by norm_num, le_rfl⟩

/-- The numbers that can be used as speeds are those with a value above zero. -/
theorem isPositive_iff (x : Float) : isPositive x = true ↔ ∃ v, value? x = some v ∧ 0 < v := by
  unfold isPositive
  rw [Bool.and_eq_true, isFinite_iff, decide_eq_true_iff]
  constructor
  · rintro ⟨⟨v, hv⟩, hpos⟩
    exact ⟨v, hv, (lt_iff_of_value value_zero hv).mp hpos⟩
  · rintro ⟨v, hv, hpos⟩
    exact ⟨⟨v, hv⟩, (lt_iff_of_value value_zero hv).mpr hpos⟩

theorem IsSpeed.bounds {x : Float} (h : IsSpeed x) : leastSpeed ≤ x ∧ x ≤ greatestSpeed := by
  obtain ⟨v, hv, hlow, hhigh⟩ := h
  exact ⟨(le_iff_of_value value_leastSpeed hv).mpr hlow,
    (le_iff_of_value hv value_greatestSpeed).mpr hhigh⟩

/-- A speed is accepted as it is. -/
theorem IsSpeed.speed?_eq {x : Float} (h : IsSpeed x) : speed? x = some x := by
  obtain ⟨v, hv, hlow, hhigh⟩ := h
  have hpos : isPositive x = true := (isPositive_iff x).mpr ⟨v, hv, by linarith⟩
  unfold speed? clamp
  rw [if_pos hpos, if_neg, if_neg]
  · rw [lt_iff_of_value value_greatestSpeed hv]
    exact not_lt.mpr hhigh
  · rw [lt_iff_of_value hv value_leastSpeed]
    exact not_lt.mpr hlow

/-- What is accepted is a speed. -/
theorem isSpeed_of_speed? {x y : Float} (h : speed? x = some y) : IsSpeed y := by
  unfold speed? at h
  split at h
  · rename_i hpos
    obtain ⟨v, hv, -⟩ := (isPositive_iff x).mp hpos
    obtain rfl := Option.some.inj h
    unfold clamp
    split
    · exact isSpeed_leastSpeed
    split
    · exact isSpeed_greatestSpeed
    · rename_i hlow hhigh
      rw [lt_iff_of_value hv value_leastSpeed, not_lt] at hlow
      rw [lt_iff_of_value value_greatestSpeed hv, not_lt] at hhigh
      exact ⟨v, hv, hlow, hhigh⟩
  · cases h

/-- Every positive number is taken as a speed. -/
theorem speed?_isSome_of_isPositive {x : Float} (h : isPositive x = true) :
    (speed? x).isSome = true := by
  rw [speed?, if_pos h]
  rfl

theorem isSpeed_initial : IsSpeed initial.speed := by
  have h : speed? initial.speed = some initial.speed := by decide +kernel
  exact isSpeed_of_speed? h

/-- Neither twice nor half a speed leaves the finite doubles. -/
theorem value?_near_speed {x : Float} {v : ℚ} (h : IsNearest x v) (hlow : 1 / 8 ≤ v)
    (hhigh : v ≤ 8) : ∃ w, value? x = some w ∧ w = rounded v := by
  have hpos : 0 ≤ rounded v := rounded_nonneg (by linarith)
  have hle : rounded v ≤ 2 ^ (3 : ℤ) :=
    (onGrid_two_zpow (by decide)).rounded_le (hhigh.trans (by norm_num))
  refine ⟨rounded v, h.value ?_, rfl⟩
  rw [abs_of_nonneg hpos]
  exact hle.trans_lt (zpow_lt_zpow_right₀ one_lt_two (by decide))

/-- Doubling stays in the range of speeds. -/
theorem isSpeed_speedUp {s : Playback} (h : IsSpeed s.speed) : IsSpeed s.speedUp.speed := by
  obtain ⟨v, hv, hlow, hhigh⟩ := h
  obtain ⟨w, hw, rfl⟩ := value?_near_speed (isNearest_mul hv value_two) (by linarith) (by linarith)
  have hge : 2 ^ (-2 : ℤ) ≤ rounded (v * 2) :=
    (onGrid_two_zpow (by decide)).le_rounded (by norm_num; linarith)
  change IsSpeed (lesser (s.speed * 2.0) greatestSpeed)
  rw [lesser_of_value hw value_greatestSpeed]
  split
  · rename_i hlt
    exact ⟨_, hw, by norm_num at hge ⊢; linarith, hlt.le⟩
  · exact isSpeed_greatestSpeed

theorem isSpeed_speedDown {s : Playback} (h : IsSpeed s.speed) : IsSpeed s.speedDown.speed := by
  obtain ⟨v, hv, hlow, hhigh⟩ := h
  obtain ⟨w, hw, rfl⟩ := value?_near_speed (isNearest_div hv value_two two_ne_zero)
    (by linarith) (by linarith)
  have hle : rounded (v / 2) ≤ 2 ^ (2 : ℤ) :=
    (onGrid_two_zpow (by decide)).rounded_le (by norm_num; linarith)
  change IsSpeed (greater (s.speed / 2.0) leastSpeed)
  rw [greater_of_value hw value_leastSpeed]
  split
  · rename_i hlt
    exact ⟨_, hw, hlt.le, by norm_num at hle ⊢; linarith⟩
  · exact isSpeed_leastSpeed

/-! ### The place of the tool -/

/-- The tool is at a point of a toolpath that ends at `last`, or between it and the next. -/
structure Placed (s : Playback) (last : Nat) : Prop where
  index : s.index ≤ last
  least : 0.0 ≤ s.progress
  below : s.progress < 1.0
  atLast : s.index = last → s.progress = 0.0

theorem zero_le_zero : (0.0 : Float) ≤ 0.0 := by decide +kernel

theorem zero_lt_one : (0.0 : Float) < 1.0 := by decide +kernel

/-- Whoever stands at a point stands well there. -/
theorem placed_at {s : Playback} {last : Nat} (hindex : s.index ≤ last)
    (hprogress : s.progress = 0.0) : s.Placed last where
  index := hindex
  least := hprogress ▸ zero_le_zero
  below := hprogress ▸ zero_lt_one
  atLast _ := hprogress

/-- Only the place counts. -/
theorem Placed.congr {s t : Playback} {last : Nat} (h : s.Placed last)
    (hindex : t.index = s.index) (hprogress : t.progress = s.progress) : t.Placed last where
  index := hindex ▸ h.index
  least := hprogress ▸ h.least
  below := hprogress ▸ h.below
  atLast hlast := hprogress ▸ h.atLast (hindex ▸ hlast)

theorem placed_reset (s : Playback) (last : Nat) : s.reset.Placed last :=
  placed_at (Nat.zero_le last) rfl

theorem placed_stop (s : Playback) (last : Nat) : s.stop.Placed last :=
  placed_at (Nat.zero_le last) rfl

/-- Wherever a request points, the tool goes to a point of the toolpath. -/
theorem placed_seek (s : Playback) (p : Program) (index : Nat) :
    (s.seek p index).Placed p.lastIndex :=
  placed_at (Nat.min_le_right _ _) rfl

theorem Placed.stepBackward {s : Playback} {last : Nat} (h : s.Placed last) :
    s.stepBackward.Placed last :=
  placed_at ((Nat.sub_le _ _).trans h.index) rfl

/-! ### Time -/

theorem IsSpeed.not_lt_zero {x : Float} (h : IsSpeed x) : ¬ x < 0.0 := by
  obtain ⟨v, hv, hlow, -⟩ := h
  rw [lt_iff_of_value hv value_zero]
  linarith

theorem not_usable_lt_zero (elapsed : Float) : ¬ usable elapsed < 0.0 := by
  unfold usable
  split
  · rename_i hpos
    obtain ⟨v, hv, hpos⟩ := (isPositive_iff elapsed).mp hpos
    rw [lt_iff_of_value hv value_zero]
    exact hpos.le.not_gt
  · decide +kernel

/-- Progress that is no number counts as arrival, so the place stays well whatever the time and the
distance are. -/
theorem placed_advance {s : Playback} {last : Nat} {duration : Float} (elapsed : Float)
    (h : s.Placed last) (hlast : s.index < last) (hspeed : IsSpeed s.speed)
    (hduration : 0.0 < duration) : (s.advance last duration elapsed).2.Placed last := by
  have hmove : ¬ s.progress + usable elapsed * s.speed / duration < 0.0 := by
    have hway := not_mul_lt_zero (not_usable_lt_zero elapsed) hspeed.not_lt_zero
    exact not_add_lt_zero (not_lt_zero_of_zero_le h.least) (not_div_lt_zero hway hduration)
  unfold advance
  dsimp only
  split
  · rename_i hbelow
    exact
      { index := h.index
        least := zero_le_of_not_lt hmove hbelow
        below := hbelow
        atLast := fun heq => absurd heq hlast.ne }
  · exact placed_at hlast rfl

/-- Time moves the tool along the toolpath and not beyond. -/
theorem Placed.tick {s : Playback} {p : Program} (h : s.Placed p.lastIndex)
    (hspeed : IsSpeed s.speed) (elapsed : Float) : (s.tick p elapsed).2.Placed p.lastIndex := by
  unfold Playback.tick
  split
  · exact h
  split
  · exact h.congr rfl rfl
  · rename_i hend
    have hlast : s.index < p.lastIndex := by simpa [atEnd] using hend
    exact placed_advance elapsed h hlast hspeed (Timing.zero_lt_duration p _ _)

theorem speed_tick (s : Playback) (p : Program) (elapsed : Float) :
    (s.tick p elapsed).2.speed = s.speed := by
  unfold Playback.tick advance
  dsimp only
  split_ifs <;> rfl

end Milling.Playback
