import Milling.Arc
import Milling.Proofs.Binary64.Plane
/-!
The sweep of an arc.

The sweep is worked out from the two angles alone, and a counter-clockwise sweep is the mirror image
of a clockwise one (`value_sweep`). Rounding gives it the right sign in all cases but one: from one
side of the half turn to the other against the direction, where the full turn that is added just
makes up for the difference of the angles (`sweepValue_neg_iff`).
-/

namespace Milling.Arc

open Binary64

/-- The value of a clockwise sweep from one angle to another. -/
def sweepValue (s f : ℚ) : ℚ :=
  rounded ((if s ≤ f then rounded (f - 2 * halfTurn) else f) - s)

section

variable {start finish : Float} {s f : ℚ}

/-! ### The value of a sweep -/

theorem value_turn : value? (2.0 * pi) = some (2 * halfTurn) := by
  have h : hasValue (2.0 * pi) 14148475504056880 2251799813685248 = true := by decide +kernel
  rw [value?_of_hasValue h (by decide), halfTurn]
  norm_num

/-- An end before the start in the direction of the arc is put a full turn further. -/
theorem value_endAngle (hs : value? start = some s) (hf : value? finish = some f)
    (hle : |f| ≤ halfTurn) (clockwise : Bool) :
    ∃ e, value? (endAngle start finish clockwise) = some e ∧ |e| ≤ 2 ^ (4 : ℤ) ∧
      e = if clockwise then (if s ≤ f then rounded (f - 2 * halfTurn) else f)
        else (if f ≤ s then rounded (f + 2 * halfTurn) else f) := by
  have hhalf := halfTurn_bounds.2
  obtain ⟨hlow, hhigh⟩ := abs_le.mp hle
  have hsmall : |f| ≤ 2 ^ (4 : ℤ) := hle.trans (hhalf.trans (by norm_num))
  cases clockwise with
  | false =>
    simp only [endAngle, le_iff_of_value hf hs, Bool.false_eq_true, if_false]
    split_ifs
    · obtain ⟨hv, hb⟩ := (isNearest_add hf value_turn).value_of_abs_le (k := 4) (by decide)
        (by decide) (abs_le.mpr ⟨by norm_num; linarith, by norm_num; linarith⟩)
      exact ⟨_, hv, hb, rfl⟩
    · exact ⟨f, hf, hsmall, rfl⟩
  | true =>
    simp only [endAngle, le_iff_of_value hs hf, if_true]
    split_ifs
    · obtain ⟨hv, hb⟩ := (isNearest_sub hf value_turn).value_of_abs_le (k := 4) (by decide)
        (by decide) (abs_le.mpr ⟨by norm_num; linarith, by norm_num; linarith⟩)
      exact ⟨_, hv, hb, rfl⟩
    · exact ⟨f, hf, hsmall, rfl⟩

/-- The sweep has a value, which is never large, and counterclockwise it is the mirror image of
clockwise. -/
theorem value_sweep (hs : value? start = some s) (hf : value? finish = some f)
    (hsle : |s| ≤ halfTurn) (hfle : |f| ≤ halfTurn) (clockwise : Bool) :
    ∃ w, value? (endAngle start finish clockwise - start) = some w ∧ |w| ≤ 2 ^ (5 : ℤ) ∧
      w = if clockwise then sweepValue s f else -sweepValue (-s) (-f) := by
  obtain ⟨e, he, hele, heq⟩ := value_endAngle hs hf hfle clockwise
  obtain ⟨hlow, hhigh⟩ := abs_le.mp (hsle.trans halfTurn_bounds.2)
  obtain ⟨helow, hehigh⟩ := abs_le.mp hele
  have hdiff : |e - s| ≤ 2 ^ (5 : ℤ) := by
    norm_num at helow hehigh ⊢
    exact abs_le.mpr ⟨by linarith, by linarith⟩
  obtain ⟨hw, hwle⟩ := (isNearest_sub he hs).value_of_abs_le (by decide) (by decide) hdiff
  refine ⟨_, hw, hwle, ?_⟩
  rw [heq]
  cases clockwise with
  | true => rfl
  | false =>
    have hmirror : ∀ v, -rounded v = rounded (-v) := fun v => (rounded_neg v).symm
    simp only [Bool.false_eq_true, if_false, sweepValue, neg_le_neg_iff]
    rw [hmirror]
    congr 1
    split_ifs
    · rw [← neg_add', rounded_neg]
      ring
    · ring

/-! ### The sign of a sweep -/

/-- An angle of less than half a turn is, a full turn back, beyond the half turn on the other side
by as much as doubles differ there. -/
theorem exists_rounded_turn_back_le (hf : OnGrid f) (hlt : f < halfTurn) :
    ∃ q, OnGrid q ∧ q < -halfTurn ∧ rounded (f - 2 * halfTurn) ≤ q := by
  have hbefore : f ≤ 7074237752028439 * 2 ^ (-51 : ℤ) := by
    by_contra hbetween
    rw [not_le] at hbetween
    obtain ⟨m, e, hm, -, rfl⟩ := hf
    rcases le_or_gt (-51) e with he | he
    · obtain ⟨k, hk⟩ := Int.le.dest he
      have hunits : (m : ℚ) * 2 ^ e = (m * 2 ^ k : ℤ) * 2 ^ (-51 : ℤ) := by
        rw [← hk, zpow_add₀ two_ne_zero, zpow_natCast]
        push_cast
        ring
      rw [hunits] at hlt hbetween
      have habove := lt_of_mul_lt_mul_right hbetween (two_zpow_pos _).le
      have hbelow := lt_of_mul_lt_mul_right hlt (two_zpow_pos _).le
      norm_cast at habove hbelow
      omega
    · have hsmall : (m : ℚ) * 2 ^ e < 2 ^ 53 * 2 ^ (-52 : ℤ) := by
        have hm' : (m : ℚ) < 2 ^ 53 := by exact_mod_cast (abs_lt.mp hm).2
        calc (m : ℚ) * 2 ^ e < 2 ^ 53 * 2 ^ e := mul_lt_mul_of_pos_right hm' (two_zpow_pos e)
          _ ≤ 2 ^ 53 * 2 ^ (-52 : ℤ) :=
            mul_le_mul_of_nonneg_left (two_zpow_le (by omega)) (by norm_num)
      norm_num at hsmall hbetween
      linarith
  have hgrid : OnGrid (-(7074237752028441 * 2 ^ (-51 : ℤ))) :=
    OnGrid.neg ⟨7074237752028441, -51, by norm_num, by norm_num, by norm_num⟩
  refine ⟨_, hgrid, ?_, hgrid.rounded_le ?_⟩
  · rw [halfTurn]
    norm_num
  · rw [halfTurn]
    linarith

/-- Rounding does not turn a sweep around: a clockwise one is below zero unless it leads from one
half turn to the other. -/
theorem sweepValue_neg_iff (hs : OnGrid s) (hf : OnGrid f) (hsle : |s| ≤ halfTurn)
    (hfle : |f| ≤ halfTurn) : sweepValue s f < 0 ↔ ¬ (s = -halfTurn ∧ f = halfTurn) := by
  have hneg : ∀ {e q}, OnGrid q → q < s → e ≤ q → rounded (e - s) < 0 := by
    intro e q hq hlt hle
    have hpos := rounded_sub_pos hq hs hlt
    rw [← neg_sub q s, rounded_neg] at hpos
    exact (rounded_mono (sub_le_sub_right hle s)).trans_lt (neg_pos.mp hpos)
  obtain ⟨hlow, -⟩ := abs_le.mp hsle
  obtain ⟨-, hhigh⟩ := abs_le.mp hfle
  unfold sweepValue
  split_ifs with hle
  · constructor
    · rintro hlt ⟨rfl, rfl⟩
      have hback : halfTurn - 2 * halfTurn = -halfTurn := by ring
      rw [hback, onGrid_halfTurn.neg.rounded_eq, sub_self, rounded_zero] at hlt
      exact lt_irrefl 0 hlt
    · intro hcut
      rcases hlow.eq_or_lt with heq | hlt
      · have hf' : f < halfTurn := lt_of_le_of_ne hhigh fun h => hcut ⟨heq.symm, h⟩
        obtain ⟨q, hq, hqlt, hback⟩ := exists_rounded_turn_back_le hf hf'
        exact hneg hq (heq ▸ hqlt) hback
      · exact hneg onGrid_halfTurn.neg hlt (onGrid_halfTurn.neg.rounded_le (by linarith))
  · rw [not_le] at hle
    have hpos := halfTurn_pos
    exact ⟨fun _ h => by linarith [h.1, h.2], fun _ => hneg hf hle le_rfl⟩

/-- The sweep goes in the direction of the arc, and it goes at all. -/
def Turns (sweep : Float) (clockwise : Bool) : Prop :=
  if clockwise then sweep < 0.0 else 0.0 < sweep

/-- The angles are the two half turns, the end lying behind the start. -/
def OverCut (start finish : Float) (clockwise : Bool) : Prop :=
  start = withSign clockwise pi ∧ finish = withSign (!clockwise) pi

theorem eq_withSign_pi_iff (hs : value? start = some s) (minus : Bool) :
    start = withSign minus pi ↔ s = if minus then -halfTurn else halfTurn := by
  have hside : value? (withSign minus pi) = some (if minus then -halfTurn else halfTurn) := by
    cases minus
    · exact value_pi
    · exact value_neg value_pi
  constructor
  · rintro rfl
    exact Option.some.inj (hs.symm.trans hside)
  · rintro rfl
    refine eq_of_value hs hside fun hzero => absurd hzero ?_
    cases minus
    · exact halfTurn_pos.ne'
    · exact neg_ne_zero.mpr halfTurn_pos.ne'

/-- The only sweep that does not go in the direction of the arc is the one from half turn to half
turn across the cut. -/
theorem turns_sweep_iff (hs : IsAngle start) (hf : IsAngle finish) (clockwise : Bool) :
    Turns (endAngle start finish clockwise - start) clockwise ↔
      ¬ OverCut start finish clockwise := by
  obtain ⟨s, hs, hsle⟩ := hs
  obtain ⟨f, hf, hfle⟩ := hf
  obtain ⟨w, hw, -, rfl⟩ := value_sweep hs hf hsle hfle clockwise
  have hsgrid := onGrid_of_value hs
  have hfgrid := onGrid_of_value hf
  rw [OverCut, eq_withSign_pi_iff hs, eq_withSign_pi_iff hf]
  cases clockwise with
  | true =>
    simp only [Turns, if_true, Bool.not_true, Bool.false_eq_true, if_false] at hw ⊢
    rw [lt_iff_of_value hw value_zero]
    exact sweepValue_neg_iff hsgrid hfgrid hsle hfle
  | false =>
    simp only [Turns, if_true, Bool.not_false, Bool.false_eq_true, if_false] at hw ⊢
    rw [lt_iff_of_value value_zero hw, neg_pos, sweepValue_neg_iff hsgrid.neg hfgrid.neg
      ((abs_neg s).trans_le hsle) ((abs_neg f).trans_le hfle), neg_inj, neg_eq_iff_eq_neg]

/-! ### Full turns -/

/-- No rounding takes much from the full turn between equal angles. -/
theorem sweepValue_self_le (hle : |s| ≤ halfTurn) : sweepValue s s ≤ -25 / 4 := by
  obtain ⟨hlow, hhigh⟩ := abs_le.mp hle
  obtain ⟨hleast, hmost⟩ := halfTurn_bounds
  -- The sixty-fourths are coarse enough to hold every angle and fine enough for the count.
  have hback : rounded (s - 2 * halfTurn) ≤ s - 2 * halfTurn + 1 / 64 := by
    have hceil := Int.ceil_lt_add_one (64 * (s - 2 * halfTurn))
    have hgrid : OnGrid (⌈64 * (s - 2 * halfTurn)⌉ * 2 ^ (-6 : ℤ)) := by
      refine ⟨_, -6, ?_, by decide, rfl⟩
      have hfloor := Int.le_ceil (64 * (s - 2 * halfTurn))
      have habs : |(⌈64 * (s - 2 * halfTurn)⌉ : ℚ)| < 2 ^ 53 :=
        abs_lt.mpr ⟨by linarith, by linarith⟩
      exact_mod_cast habs
    refine (hgrid.rounded_le ?_).trans ?_
    · have hfloor := Int.le_ceil (64 * (s - 2 * halfTurn))
      norm_num
      linarith
    · norm_num
      linarith
  have hgrid : OnGrid (-25 / 4) := ⟨-25, -2, by norm_num, by norm_num, by norm_num⟩
  rw [sweepValue, if_pos le_rfl]
  exact hgrid.rounded_le (by linarith)

theorem value_segmentAngle : value? segmentAngle = some (halfTurn / 16) := by
  have h : hasValue segmentAngle 7074237752028440 36028797018963968 = true := by decide +kernel
  rw [value?_of_hasValue h (by decide), halfTurn]
  norm_num

theorem lt_ceilNat {x : Float} {v : ℚ} {n : Nat} (hx : value? x = some v) (hlt : n < v) :
    n < ceilNat x := by
  obtain ⟨e, he, rfl⟩ := Option.map_eq_some_iff.mp ((value?_eq_decode? x).symm.trans hx)
  have hpos : 0 < e.value := lt_of_le_of_lt (Nat.cast_nonneg n) hlt
  have hsign : e.negative = false := by
    by_contra hnegative
    rw [Exact.value, if_pos (by simpa using hnegative), neg_one_mul, neg_mul] at hpos
    have hnonneg : (0 : ℚ) ≤ e.mantissa * 2 ^ e.exponent := by positivity
    linarith
  rw [value?_of_decode he hsign, Option.some_inj] at hx
  have hden := e.denominator_pos
  rw [← hx, lt_div_iff₀ (by exact_mod_cast hden)] at hlt
  have hnat : n * e.denominator < e.numerator := by exact_mod_cast hlt
  rw [ceilNat, he]
  simp only [hsign, Bool.false_eq_true, if_false, Exact.ceilMagnitude]
  rw [Nat.lt_iff_add_one_le, Nat.le_div_iff_mul_le hden, Nat.succ_mul]
  omega

def segmentsBetween (start finish : Float) (clockwise : Bool) : Nat :=
  max (ceilNat ((endAngle start finish clockwise - start).abs / segmentAngle)) leastSegments

/-- An arc has as many points as there are segments between its two directions. -/
theorem length_points (a b : Point) (i j : Float) (clockwise : Bool) :
    (points a b i j clockwise).length =
      segmentsBetween (direction (a.y - (a.y + j)) (a.x - (a.x + i)))
        (direction (b.y - (a.y + j)) (b.x - (a.x + i))) clockwise := by
  rw [points, List.length_map, List.length_range]
  rfl

/-- An arc between equal angles is a full turn. -/
theorem full_le_segmentsBetween (h : IsAngle start) (clockwise : Bool) :
    32 ≤ segmentsBetween start start clockwise := by
  obtain ⟨s, hs, hle⟩ := h
  obtain ⟨w, hw, hwle, heq⟩ := value_sweep hs hs hle hle clockwise
  have hturn : 25 / 4 ≤ |w| := by
    have hself := sweepValue_self_le hle
    have hself' := sweepValue_self_le ((abs_neg s).trans_le hle)
    rw [heq]
    cases clockwise with
    | true => exact le_abs.mpr (Or.inr (by simp only [if_true]; linarith))
    | false => exact le_abs.mpr (Or.inl (by simp only [Bool.false_eq_true, if_false]; linarith))
  obtain ⟨hleast, hmost⟩ := halfTurn_bounds
  have hangle : 0 < halfTurn / 16 := div_pos halfTurn_pos (by norm_num)
  have hquot : 63 / 2 ≤ |w| / (halfTurn / 16) := by
    rw [le_div_iff₀ hangle]
    linarith
  have hquot' : |(|w| / (halfTurn / 16))| ≤ 2 ^ (8 : ℤ) := by
    rw [abs_of_nonneg (div_nonneg (abs_nonneg w) hangle.le), div_le_iff₀ hangle]
    norm_num at hwle ⊢
    linarith
  have hcount := ((isNearest_div (value?_abs hw) value_segmentAngle hangle.ne').value_of_abs_le
    (by decide) (by decide) hquot').1
  have hgrid : OnGrid (63 / 2) := ⟨63, -1, by norm_num, by norm_num, by norm_num⟩
  have hlt : ((31 : Nat) : ℚ) < rounded (|w| / (halfTurn / 16)) :=
    lt_of_lt_of_le (by norm_num) (hgrid.le_rounded hquot)
  exact (lt_ceilNat hcount hlt).trans_le (le_max_left _ _)

end

end Milling.Arc
