import Milling.Proofs.Arc.Sweep
/-!
Arcs that end where they start.

Coordinates that compare equal can be zeros of different signs, and then start and end can have
different directions from the centre. `Collapses` tells when this costs the arc its full turn, and
`turns_and_full_turn` that nothing else does.
-/

namespace Milling.Arc

open Binary64

/-! ### One coordinate -/

/-- On one axis start and end are zeros of different signs, and so are their distances from the
centre. -/
def Apart (start finish offset : Float) : Prop :=
  (start == 0.0) = true ∧ isMinus start ≠ isMinus finish ∧
    (offset == 0.0) = true ∧ (isMinus start && isMinus offset) = false

section

variable {x y d : Float}

/-- Equal coordinates have equal distances from the centre, or keep their signs as zeros. -/
theorem apart_or (hx : x.isFinite = true) (hy : (y == x) = true) (hd : d.isFinite = true) :
    ¬ Apart x y d ∧ y - (x + d) = x - (x + d) ∨
      Apart x y d ∧ x - (x + d) = x ∧ y - (x + d) = y := by
  obtain ⟨a, ha⟩ := (isFinite_iff x).mp hx
  obtain ⟨c, hc⟩ := (isFinite_iff d).mp hd
  rw [beq_iff_value ha] at hy
  by_cases hsame : a = 0 → isMinus y = isMinus x
  · refine Or.inl ⟨?_, by rw [eq_of_value hy ha hsame]⟩
    rintro ⟨hzero, hsign, -⟩
    rw [beq_iff_of_value ha value_zero] at hzero
    exact hsign (hsame hzero).symm
  obtain ⟨rfl, hsign⟩ := Classical.not_imp.mp hsame
  rcases eq_or_ne c 0 with rfl | hne
  · have hzeros : ∀ m n : Bool,
        ¬ Apart (withSign m 0.0) (withSign (!m) 0.0) (withSign n 0.0) ∧
            withSign (!m) 0.0 - (withSign m 0.0 + withSign n 0.0) =
              withSign m 0.0 - (withSign m 0.0 + withSign n 0.0) ∨
          Apart (withSign m 0.0) (withSign (!m) 0.0) (withSign n 0.0) ∧
            withSign m 0.0 - (withSign m 0.0 + withSign n 0.0) = withSign m 0.0 ∧
            withSign (!m) 0.0 - (withSign m 0.0 + withSign n 0.0) = withSign (!m) 0.0 := by
      unfold Apart
      decide +kernel
    rw [eq_of_value_zero ha, eq_of_value_zero hc, eq_of_value_zero hy,
      Bool.eq_not_of_ne hsign]
    exact hzeros _ _
  · have hneg : -c ≠ 0 := neg_ne_zero.mpr hne
    refine Or.inl ⟨?_, ?_⟩
    · rintro ⟨-, -, hzero, -⟩
      rw [beq_iff_of_value hc value_zero] at hzero
      exact hne hzero
    · rw [zero_add_of_value ha hc hne, sub_eq_add, sub_eq_add,
        zero_add_of_value ha (value_neg hc) hneg, zero_add_of_value hy (value_neg hc) hneg]

theorem Apart.finish_eq (h : Apart x y d) (hy : (y == x) = true) : (y == 0.0) = true := by
  have hx := (beq_iff_value value_zero).mp h.1
  exact (beq_iff_value value_zero).mpr ((beq_iff_value hx).mp hy)

theorem isNaN_add (hx : x.isFinite = true) (hd : d.isFinite = true) : (x + d).isNaN = false := by
  obtain ⟨a, ha⟩ := (isFinite_iff x).mp hx
  obtain ⟨c, hc⟩ := (isFinite_iff d).mp hd
  exact (isNearest_add ha hc).isNaN_eq

/-- The start lies on the negative side of the centre if the offset leads up at all. -/
theorem isMinus_sub_add (hx : x.isFinite = true) (hd : d.isFinite = true)
    (hne : ¬ (d == 0.0) = true) : isMinus (x - (x + d)) = decide (x < x + d) := by
  obtain ⟨a, ha⟩ := (isFinite_iff x).mp hx
  obtain ⟨c, hc⟩ := (isFinite_iff d).mp hd
  rw [beq_iff_of_value hc value_zero] at hne
  refine isMinus_sub ha (isNaN_add hx hd) ?_
  rintro ⟨rfl, hsum⟩
  rw [zero_add_of_value ha hc hne, hc] at hsum
  exact hne (Option.some.inj hsum)

/-! ### Directions of zeros -/

/-- On the horizontal axis the direction is a half turn or none, on the side that the sign of the
zero tells. -/
theorem direction_of_zero (hx : x.isNaN = false) (hy : (y == 0.0) = true) :
    direction y x = if isMinus x then withSign (isMinus y) pi else y := by
  have hnan : y.isNaN = false := isNaN_of_value ((beq_iff_value value_zero).mp hy)
  rw [direction, hx, hnan, Bool.or_self, if_neg Bool.false_ne_true, if_pos hy]
  rfl

/-- On the vertical axis the direction is a quarter turn, up or down. -/
theorem direction_of_vertical (hx : (x == 0.0) = true) (hy : ¬ (y == 0.0) = true)
    (hnan : y.isNaN = false) :
    direction y x = if isMinus y then -(pi / 2.0) else pi / 2.0 := by
  have hxnan : x.isNaN = false := isNaN_of_value ((beq_iff_value value_zero).mp hx)
  rw [direction, hxnan, hnan, Bool.or_self, if_neg Bool.false_ne_true, if_neg hy, if_pos hx]

end

/-! ### The arc -/

/-- Start and end are the same point but for the sign of a zero that puts them on different sides of
the cut: against the direction of the arc if they differ in `y`, and in `x` if the centre is so near
that it cannot be told from them in `y`. -/
def Collapses (a b : Point) (i j : Float) (clockwise : Bool) : Prop :=
  Apart a.y b.y j ∧ a.x < a.x + i ∧ clockwise = isMinus a.y ∨
    Apart a.x b.x i ∧ (a.y + j == a.y) = true

section

variable {a b : Point} {i j : Float}

/-- Seen from the centre every finite point lies at an angle, even if the centre is out of range. -/
theorem isAngle_course (hx : a.x.isFinite = true) (hy : a.y.isFinite = true)
    (hi : i.isFinite = true) (hj : j.isFinite = true) {c : Point} (hcx : c.x.isFinite = true)
    (hcy : c.y.isFinite = true) : IsAngle (direction (c.y - (a.y + j)) (c.x - (a.x + i))) :=
  isAngle_direction (isNaN_sub hcx (isNaN_add hx hi)) (isNaN_sub hcy (isNaN_add hy hj))

/-- Zeros of different signs beside the centre. -/
theorem full_turn_beside (hx : a.x.isFinite = true) (hi : i.isFinite = true)
    (hne : ¬ (i == 0.0) = true) (hapart : Apart a.y b.y j)
    (hb : (b.y == 0.0) = true) (clockwise : Bool) :
    32 ≤ segmentsBetween (direction a.y (a.x - (a.x + i))) (direction b.y (a.x - (a.x + i)))
        clockwise ↔ ¬ (a.x < a.x + i ∧ clockwise = isMinus a.y) := by
  have hnan := isNaN_sub hx (isNaN_add hx hi)
  have hcut : ∀ m c : Bool,
      32 ≤ segmentsBetween (withSign m pi) (withSign (!m) pi) c ↔ ¬ c = m := by decide +kernel
  have haxis : ∀ m c : Bool,
      32 ≤ segmentsBetween (withSign m 0.0) (withSign (!m) 0.0) c := by decide +kernel
  obtain ⟨ha, hsign, -⟩ := hapart
  have hflip : isMinus b.y = !isMinus a.y := Bool.eq_not_of_ne hsign.symm
  rw [direction_of_zero hnan ha, direction_of_zero hnan hb, isMinus_sub_add hx hi hne, hflip]
  by_cases hup : a.x < a.x + i
  · simp only [hup, decide_true, if_true, true_and]
    exact hcut _ _
  · simp only [hup, decide_false, Bool.false_eq_true, if_false, false_and, not_false_eq_true,
      iff_true]
    rw [eq_of_value_zero ((beq_iff_value value_zero).mp ha),
      eq_of_value_zero ((beq_iff_value value_zero).mp hb), hflip]
    exact haxis _ _

/-- Zeros of different signs above or below the centre. -/
theorem full_turn_above (hy : a.y.isFinite = true) (hj : j.isFinite = true)
    (hne : ¬ (j == 0.0) = true) (hapart : Apart a.x b.x i) (hb : (b.x == 0.0) = true)
    (clockwise : Bool) :
    32 ≤ segmentsBetween (direction (a.y - (a.y + j)) a.x) (direction (a.y - (a.y + j)) b.x)
        clockwise ↔ ¬ (a.y + j == a.y) = true := by
  have hnan := isNaN_sub hy (isNaN_add hy hj)
  have haxis : ∀ m c : Bool, ¬ 32 ≤ segmentsBetween (direction 0.0 (withSign m 0.0))
      (direction 0.0 (withSign (!m) 0.0)) c := by decide +kernel
  obtain ⟨ha, hsign, -⟩ := hapart
  have hflip : isMinus b.x = !isMinus a.x := Bool.eq_not_of_ne hsign.symm
  obtain ⟨v, hv⟩ := (isFinite_iff a.y).mp hy
  have hiff := sub_beq_zero_iff hv (isNaN_add hy hj)
  by_cases hlevel : (a.y + j == a.y) = true
  · have hzero := eq_of_value_zero ((beq_iff_value value_zero).mp (hiff.mpr hlevel))
    have hlt : ¬ a.y < a.y + j := by
      rw [lt_iff_of_value hv ((beq_iff_value hv).mp hlevel)]
      exact lt_irrefl v
    rw [isMinus_sub_add hy hj hne, decide_eq_false hlt] at hzero
    simp only [hlevel, not_true_eq_false, iff_false]
    rw [hzero, eq_of_value_zero ((beq_iff_value value_zero).mp ha),
      eq_of_value_zero ((beq_iff_value value_zero).mp hb), hflip]
    exact haxis _ _
  · have hvertical : ¬ (a.y - (a.y + j) == 0.0) = true := hiff.not.mpr hlevel
    rw [iff_true_right hlevel, direction_of_vertical ha hvertical hnan,
      direction_of_vertical hb hvertical hnan]
    refine full_le_segmentsBetween ?_ clockwise
    split
    · exact isAngle_quarter.neg
    · exact isAngle_quarter

/-- An arc that ends where it starts has the segments of a full turn, unless signs of zeros put its
ends on either side of the cut. -/
theorem full_turn_iff (hax : a.x.isFinite = true) (hay : a.y.isFinite = true)
    (hi : i.isFinite = true) (hj : j.isFinite = true) (hbx : (b.x == a.x) = true)
    (hby : (b.y == a.y) = true) (hne : ¬ ((i == 0.0) = true ∧ (j == 0.0) = true))
    (clockwise : Bool) :
    32 ≤ (points a b i j clockwise).length ↔ ¬ Collapses a b i j clockwise := by
  rw [length_points]
  rcases apart_or hax hbx hi with ⟨hx, hsame⟩ | ⟨hx, hxa, hxb⟩ <;>
    rcases apart_or hay hby hj with ⟨hy, hsame'⟩ | ⟨hy, hya, hyb⟩
  · rw [hsame, hsame']
    refine iff_of_true (full_le_segmentsBetween (isAngle_course hax hay hi hj hax hay) _) ?_
    rintro (⟨h, -⟩ | ⟨h, -⟩)
    · exact hy h
    · exact hx h
  · have hi0 : ¬ (i == 0.0) = true := fun h => hne ⟨h, hy.2.2.1⟩
    rw [hsame, hya, hyb, full_turn_beside hax hi hi0 hy (hy.finish_eq hby), Collapses]
    simp only [hy, hx, true_and, false_and, or_false]
  · have hj0 : ¬ (j == 0.0) = true := fun h => hne ⟨hx.2.2.1, h⟩
    rw [hsame', hxa, hxb, full_turn_above hay hj hj0 hx (hx.finish_eq hbx), Collapses]
    simp only [hy, hx, true_and, false_and, false_or]
  · exact absurd ⟨hx.2.2.1, hy.2.2.1⟩ hne

/-- An arc goes in its direction, and one that ends where it starts is a full turn, except where the
angles of start and end lie on different sides of the cut. -/
theorem turns_and_full_turn (a b : Point) (i j : Float) (clockwise : Bool)
    (hax : a.x.isFinite = true) (hay : a.y.isFinite = true) (hbx : b.x.isFinite = true)
    (hby : b.y.isFinite = true) (hi : i.isFinite = true) (hj : j.isFinite = true) :
    (Turns (course a b i j clockwise).sweep clockwise ↔
      ¬ OverCut (course a b i j clockwise).start
        (direction (b.y - (a.y + j)) (b.x - (a.x + i))) clockwise) ∧
    ((b.x == a.x) = true → (b.y == a.y) = true → ¬ ((i == 0.0) = true ∧ (j == 0.0) = true) →
      (32 ≤ (points a b i j clockwise).length ↔ ¬ Collapses a b i j clockwise)) :=
  ⟨turns_sweep_iff (isAngle_course hax hay hi hj hax hay) (isAngle_course hax hay hi hj hbx hby)
      clockwise,
    fun hx hy hne => full_turn_iff hax hay hi hj hx hy hne clockwise⟩

/-- A circle that starts and ends to the right of its centre. -/
theorem turns_and_full_turn_circle :
    let a : Point := ⟨10.0, 0.0, 0.0⟩
    let i : Float := -10.0
    let finish := direction (a.y - (a.y + 0.0)) (a.x - (a.x + i))
    (a.x.isFinite = true ∧ a.y.isFinite = true ∧ i.isFinite = true ∧ (0.0 : Float).isFinite = true) ∧
      (Turns (course a a i 0.0 true).sweep true ↔
        ¬ OverCut (course a a i 0.0 true).start finish true) ∧
      32 ≤ (points a a i 0.0 true).length := by
  intro a i finish
  have hx : a.x.isFinite = true := by decide +kernel
  have hy : a.y.isFinite = true := by decide +kernel
  have hi : i.isFinite = true := by decide +kernel
  have hj : (0.0 : Float).isFinite = true := by decide +kernel
  obtain ⟨hturns, hfull⟩ := turns_and_full_turn a a i 0.0 true hx hy hx hy hi hj
  have hkept : ¬ Collapses a a i 0.0 true := by
    unfold Collapses Apart
    decide +kernel
  exact ⟨⟨hx, hy, hi, hj⟩, hturns,
    (hfull (by decide +kernel) (by decide +kernel) (by decide +kernel)).mpr hkept⟩

/-- To the left of the centre the sign of a zero `y` puts the end on the other side of the cut, and
the arc stays where it is. -/
theorem not_turns_of_minus_zero :
    let a : Point := ⟨10.0, 0.0, 0.0⟩
    let b : Point := ⟨10.0, -0.0, 0.0⟩
    (b.x == a.x) = true ∧ (b.y == a.y) = true ∧ (5.0 : Float).isFinite = true ∧
      ¬ ((5.0 : Float) == 0.0) = true ∧
      (points a b 5.0 0.0 false).length = 8 ∧ ¬ Turns (course a b 5.0 0.0 false).sweep false := by
  unfold Turns
  decide +kernel

end

end Milling.Arc
