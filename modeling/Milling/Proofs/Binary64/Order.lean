import Milling.Binary64.Order
import Milling.Proofs.Binary64.Value
/-!
The order of doubles, and the least and greatest of finite ones.

On finite doubles the order is that of their values, so it is reflexive and transitive there. The
infinities are its ends, and NaN stands in no relation, so all of it is transitive. The least and
the greatest double of a list are found by one pass that starts at an infinity; `Picks` says what
this pass needs of the choice between two doubles, once for both directions.
-/

namespace Milling.Binary64

open Float.Model

/-! ### The order of finite doubles -/

section Finite

variable {x y z : Float}

theorem le_refl_of_isFinite (hx : x.isFinite = true) : x ≤ x := by
  obtain ⟨a, ha⟩ := (isFinite_iff x).mp hx
  exact (le_iff_of_value ha ha).mpr le_rfl

/-- Among finite doubles the order is transitive. -/
theorem le_trans_of_isFinite (hx : x.isFinite = true) (hy : y.isFinite = true)
    (hz : z.isFinite = true) (hxy : x ≤ y) (hyz : y ≤ z) : x ≤ z := by
  obtain ⟨a, ha⟩ := (isFinite_iff x).mp hx
  obtain ⟨b, hb⟩ := (isFinite_iff y).mp hy
  obtain ⟨c, hc⟩ := (isFinite_iff z).mp hz
  rw [le_iff_of_value ha hb] at hxy
  rw [le_iff_of_value hb hc] at hyz
  exact (le_iff_of_value ha hc).mpr (hxy.trans hyz)

/-- Two doubles that bound each other are equal, though they may be zeros of different signs. -/
theorem beq_of_le_of_le (hx : x.isFinite = true) (hy : y.isFinite = true) (hxy : x ≤ y)
    (hyx : y ≤ x) : (x == y) = true := by
  obtain ⟨a, ha⟩ := (isFinite_iff x).mp hx
  obtain ⟨b, hb⟩ := (isFinite_iff y).mp hy
  rw [le_iff_of_value ha hb] at hxy
  rw [le_iff_of_value hb ha] at hyx
  exact (beq_iff_of_value ha hb).mpr (le_antisymm hxy hyx)

/-- A finite double is above one infinity and below the other, from either side. -/
theorem compare_infinity (hx : x.isFinite = true) :
    x.toModel.unpack.compare (.infinity .negative) = some .gt ∧
      (UnpackedFloat.infinity .positive).compare x.toModel.unpack = some .gt ∧
      (UnpackedFloat.infinity .negative).compare x.toModel.unpack = some .lt ∧
      x.toModel.unpack.compare (.infinity .positive) = some .lt := by
  unfold Float.isFinite Float.Model.isFinite at hx
  cases hu : x.toModel.unpack with
  | notANumber =>
    rw [hu] at hx
    cases hx
  | infinity s =>
    rw [hu] at hx
    cases hx
  | zero s => exact ⟨rfl, rfl, rfl, rfl⟩
  | finite s m e hm => cases s <;> exact ⟨rfl, rfl, rfl, rfl⟩

/-- What lies between finite doubles is finite; in particular it is a number. -/
theorem isFinite_of_le_of_le (hx : x.isFinite = true) (hz : z.isFinite = true) (hxy : x ≤ y)
    (hyz : y ≤ z) : y.isFinite = true := by
  rw [le_iff_compare] at hxy hyz
  obtain ⟨o, ho, hle⟩ := hxy
  obtain ⟨o', ho', hle'⟩ := hyz
  unfold Float.isFinite Float.Model.isFinite
  cases hy : y.toModel.unpack with
  | notANumber =>
    rw [hy] at ho'
    cases ho'
  | infinity s =>
    cases s with
    | negative =>
      rw [hy, (compare_infinity hx).1] at ho
      cases ho
      cases hle
    | positive =>
      rw [hy, (compare_infinity hz).2.1] at ho'
      cases ho'
      cases hle'
  | zero s => rfl
  | finite s m e hm => rfl

/-! ### The choice between two doubles -/

theorem lesser_eq_or (x y : Float) : lesser x y = x ∨ lesser x y = y := by
  unfold lesser
  split
  · exact Or.inl rfl
  · exact Or.inr rfl

theorem greater_eq_or (x y : Float) : greater x y = x ∨ greater x y = y := by
  unfold greater
  split
  · exact Or.inl rfl
  · exact Or.inr rfl

/-- Of two numbers the lesser is taken, and of equal ones the second. -/
theorem lesser_of_value {a b : ℚ} (hx : value? x = some a) (hy : value? y = some b) :
    lesser x y = if a < b then x else y := by
  unfold lesser
  simp only [lt_iff_of_value hx hy, isNaN_of_value hy, Bool.false_eq_true, or_false]

theorem greater_of_value {a b : ℚ} (hx : value? x = some a) (hy : value? y = some b) :
    greater x y = if b < a then x else y := by
  unfold greater
  simp only [lt_iff_of_value hy hx, isNaN_of_value hy, Bool.false_eq_true, or_false]

theorem lesser_le (hx : x.isFinite = true) (hy : y.isFinite = true) :
    lesser x y ≤ x ∧ lesser x y ≤ y := by
  obtain ⟨a, ha⟩ := (isFinite_iff x).mp hx
  obtain ⟨b, hb⟩ := (isFinite_iff y).mp hy
  rw [lesser_of_value ha hb]
  split
  · rename_i hlt
    exact ⟨le_refl_of_isFinite hx, (le_iff_of_value ha hb).mpr hlt.le⟩
  · rename_i hnot
    exact ⟨(le_iff_of_value hb ha).mpr (not_lt.mp hnot), le_refl_of_isFinite hy⟩

theorem le_greater (hx : x.isFinite = true) (hy : y.isFinite = true) :
    x ≤ greater x y ∧ y ≤ greater x y := by
  obtain ⟨a, ha⟩ := (isFinite_iff x).mp hx
  obtain ⟨b, hb⟩ := (isFinite_iff y).mp hy
  rw [greater_of_value ha hb]
  split
  · rename_i hlt
    exact ⟨le_refl_of_isFinite hx, (le_iff_of_value hb ha).mpr hlt.le⟩
  · rename_i hnot
    exact ⟨(le_iff_of_value ha hb).mpr (not_lt.mp hnot), le_refl_of_isFinite hy⟩

/-- The greater of two doubles is at least the second, also where the first is no number. -/
theorem le_greater_right (x : Float) (hy : y.isFinite = true) : y ≤ greater x y := by
  obtain ⟨b, hb⟩ := (isFinite_iff y).mp hy
  unfold greater
  split
  · rename_i hor
    rw [isNaN_of_value hb] at hor
    exact le_of_less (hor.resolve_right nofun)
  · exact le_refl_of_isFinite hy

theorem unpack_neg_infinity :
    (-(1.0 / 0.0) : Float).toModel.unpack = .infinity .negative := by
  have h : (-(1.0 / 0.0) : Float).toModel = Float.Model.pack (.infinity .negative) := by
    decide +kernel
  rw [h, unpack_pack (u := .infinity .negative) trivial trivial]

/-- Infinity, the least of nothing, gives way to any finite double. -/
theorem lesser_infinity (hx : x.isFinite = true) : lesser (1.0 / 0.0) x = x := by
  obtain ⟨a, ha⟩ := (isFinite_iff x).mp hx
  have hlt : ¬ 1.0 / 0.0 < x := by
    rw [lt_iff_compare, unpack_infinity, (compare_infinity hx).2.1]
    nofun
  unfold lesser
  rw [if_neg]
  rw [isNaN_of_value ha]
  simpa using hlt

theorem greater_neg_infinity (hx : x.isFinite = true) : greater (-(1.0 / 0.0)) x = x := by
  obtain ⟨a, ha⟩ := (isFinite_iff x).mp hx
  have hlt : ¬ x < -(1.0 / 0.0) := by
    rw [lt_iff_compare, unpack_neg_infinity, (compare_infinity hx).1]
    nofun
  unfold greater
  rw [if_neg]
  rw [isNaN_of_value ha]
  simpa using hlt

end Finite

/-! ### The infinities in the order -/

section Infinite

variable {x y z : Float}

/-- A double that is compared is a number. -/
theorem isNaN_of_le (h : x ≤ y) : x.isNaN = false ∧ y.isNaN = false := by
  rw [le_iff_compare] at h
  obtain ⟨o, ho, -⟩ := h
  unfold Float.isNaN Float.Model.isNaN
  constructor
  · cases hx : x.toModel.unpack with
    | notANumber =>
      rw [hx] at ho
      cases ho
    | _ => rfl
  · cases hy : y.toModel.unpack with
    | notANumber => cases hx : x.toModel.unpack <;> rw [hx, hy] at ho <;> cases ho
    | _ => rfl

theorem neg_infinity_lt (hx : x.toModel.unpack = .infinity .negative) (hy : y.isFinite = true) :
    x < y := by
  rw [lt_iff_compare, hx]
  exact (compare_infinity hy).2.2.1

theorem lt_infinity (hx : x.isFinite = true) (hy : y.toModel.unpack = .infinity .positive) :
    x < y := by
  rw [lt_iff_compare, hy]
  exact (compare_infinity hx).2.2.2

theorem unpack_of_not_isFinite (h : x.isFinite = false) (hnan : x.isNaN = false) :
    ∃ s, x.toModel.unpack = .infinity s := by
  unfold Float.isFinite Float.Model.isFinite at h
  unfold Float.isNaN Float.Model.isNaN at hnan
  cases hu : x.toModel.unpack with
  | infinity s => exact ⟨s, rfl⟩
  | notANumber =>
    rw [hu] at hnan
    cases hnan
  | zero s =>
    rw [hu] at h
    cases h
  | finite s m e hm =>
    rw [hu] at h
    cases h

theorem compare_sign :
    compare UnpackedFloat.Sign.negative .negative = .eq ∧
      compare UnpackedFloat.Sign.negative .positive = .lt ∧
      compare UnpackedFloat.Sign.positive .negative = .gt ∧
      compare UnpackedFloat.Sign.positive .positive = .eq :=
  ⟨rfl, rfl, rfl, rfl⟩

/-- Minus infinity comes before everything that is a number. -/
theorem neg_infinity_le_iff (hx : x.toModel.unpack = .infinity .negative) :
    x ≤ y ↔ y.isNaN = false := by
  rw [le_iff_compare, hx]
  unfold Float.isNaN Float.Model.isNaN
  rcases y.toModel.unpack with (_ | _) | _ | _ | _ <;>
    simp [UnpackedFloat.compare, UnpackedFloat.isNaN, compare_sign]

theorem le_infinity_iff (hy : y.toModel.unpack = .infinity .positive) :
    x ≤ y ↔ x.isNaN = false := by
  rw [le_iff_compare, hy]
  unfold Float.isNaN Float.Model.isNaN
  rcases x.toModel.unpack with (_ | _) | _ | _ | _ <;>
    simp [UnpackedFloat.compare, UnpackedFloat.isNaN, compare_sign]

theorem infinity_le_iff (hx : x.toModel.unpack = .infinity .positive) :
    x ≤ y ↔ y.toModel.unpack = .infinity .positive := by
  rw [le_iff_compare, hx]
  rcases y.toModel.unpack with (_ | _) | _ | _ | _ <;> simp [UnpackedFloat.compare, compare_sign]

theorem le_neg_infinity_iff (hy : y.toModel.unpack = .infinity .negative) :
    x ≤ y ↔ x.toModel.unpack = .infinity .negative := by
  rw [le_iff_compare, hy]
  rcases x.toModel.unpack with (_ | _) | _ | _ | _ <;> simp [UnpackedFloat.compare, compare_sign]

/-- The order is transitive, also at its ends. -/
protected theorem le_trans (hxy : x ≤ y) (hyz : y ≤ z) : x ≤ z := by
  cases hx : x.isFinite with
  | false =>
    obtain ⟨s, hs⟩ := unpack_of_not_isFinite hx (isNaN_of_le hxy).1
    cases s with
    | negative => exact (neg_infinity_le_iff hs).mpr (isNaN_of_le hyz).2
    | positive =>
      have hy := (infinity_le_iff hs).mp hxy
      exact (infinity_le_iff hs).mpr ((infinity_le_iff hy).mp hyz)
  | true =>
    cases hz : z.isFinite with
    | false =>
      obtain ⟨s, hs⟩ := unpack_of_not_isFinite hz (isNaN_of_le hyz).2
      cases s with
      | negative =>
        have hy := (le_neg_infinity_iff hs).mp hyz
        exact (le_neg_infinity_iff hs).mpr ((le_neg_infinity_iff hy).mp hxy)
      | positive => exact (le_infinity_iff hs).mpr (isNaN_of_le hxy).1
    | true => exact le_trans_of_isFinite hx (isFinite_of_le_of_le hx hz hxy hyz) hz hxy hyz

end Infinite

/-! ### One pass over a list -/

/-- The choice between two doubles goes by an order: of finite ones it takes one that comes before
both, and it prefers any finite double to `start`. -/
structure Picks (pick : Float → Float → Float) (before : Float → Float → Prop)
    (start : Float) : Prop where
  eq_or : ∀ x y, pick x y = x ∨ pick x y = y
  first : ∀ {x y : Float}, x.isFinite = true → y.isFinite = true →
    before (pick x y) x ∧ before (pick x y) y
  refl : ∀ {x : Float}, x.isFinite = true → before x x
  trans : ∀ {x y z : Float}, x.isFinite = true → y.isFinite = true → z.isFinite = true →
    before x y → before y z → before x z
  start : ∀ {x : Float}, x.isFinite = true → pick start x = x

theorem picks_lesser : Picks lesser (· ≤ ·) (1.0 / 0.0) where
  eq_or := lesser_eq_or
  first := lesser_le
  refl := le_refl_of_isFinite
  trans := le_trans_of_isFinite
  start := lesser_infinity

theorem picks_greater : Picks greater (· ≥ ·) (-(1.0 / 0.0)) where
  eq_or := greater_eq_or
  first := le_greater
  refl := le_refl_of_isFinite
  trans hx hy hz hxy hyz := le_trans_of_isFinite hz hy hx hyz hxy
  start := greater_neg_infinity

/-- The double is in the list and comes before all of it. -/
structure IsFirst (before : Float → Float → Prop) (m : Float) (xs : List Float) : Prop where
  mem : m ∈ xs
  first : ∀ x ∈ xs, before m x

namespace Picks

variable {pick : Float → Float → Float} {before : Float → Float → Prop} {start : Float}
  {xs : List Float}

/-- The induction replaces the first two doubles of the list by the one that is picked. -/
theorem isFirst_foldl_cons (h : Picks pick before start) {x : Float}
    (hfinite : ∀ y ∈ x :: xs, y.isFinite = true) : IsFirst before (xs.foldl pick x) (x :: xs) := by
  induction xs generalizing x with
  | nil =>
    refine ⟨List.mem_cons_self, ?_⟩
    intro y hy
    obtain rfl := List.mem_singleton.mp hy
    exact h.refl (hfinite y hy)
  | cons y rest ih =>
    have hx : x.isFinite = true := hfinite x List.mem_cons_self
    have hy : y.isFinite = true := hfinite y (List.mem_cons_of_mem _ List.mem_cons_self)
    have hpick : pick x y ∈ x :: y :: rest := by
      rcases h.eq_or x y with heq | heq <;> simp [heq]
    have hsub : ∀ z ∈ pick x y :: rest, z ∈ x :: y :: rest := by
      intro z hz
      rcases List.mem_cons.mp hz with rfl | hz
      · exact hpick
      · exact List.mem_cons_of_mem _ (List.mem_cons_of_mem _ hz)
    obtain ⟨hmem, hfirst⟩ := ih fun z hz => hfinite z (hsub z hz)
    have hm := hfinite _ (hsub _ hmem)
    have hmpick := hfirst _ List.mem_cons_self
    obtain ⟨hpx, hpy⟩ := h.first hx hy
    refine ⟨hsub _ hmem, ?_⟩
    intro z hz
    rcases List.mem_cons.mp hz with rfl | hz
    · exact h.trans hm (hfinite _ hpick) hx hmpick hpx
    rcases List.mem_cons.mp hz with rfl | hz
    · exact h.trans hm (hfinite _ hpick) hy hmpick hpy
    · exact hfirst z (List.mem_cons_of_mem _ hz)

/-- Choosing along a list of finite doubles leads to the one that comes first. It is in the list,
since any of them is preferred to the start. -/
theorem isFirst_foldl (h : Picks pick before start) (hne : xs ≠ [])
    (hfinite : ∀ x ∈ xs, x.isFinite = true) : IsFirst before (xs.foldl pick start) xs := by
  cases xs with
  | nil => exact absurd rfl hne
  | cons x rest =>
    rw [List.foldl_cons, h.start (hfinite x List.mem_cons_self)]
    exact h.isFirst_foldl_cons hfinite

end Picks

end Milling.Binary64
