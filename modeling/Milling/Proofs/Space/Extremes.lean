import Milling.Proofs.Binary64.Order
import Milling.Space.Box
/-!
The box around a list of points.

Points with a coordinate that is not finite are passed over. Around the others the box is as small
as it can be: it holds all of them, and each of its faces touches one (`Box.Fits`). The six extremes
do not depend on each other, so everything here is said axis by axis. They are exact on every list,
and depend on nothing but which finite points are in it (`Extremes.extremes_exact`).
-/

namespace Milling

open Binary64

inductive Axis
  | x
  | y
  | z

def Point.coord (p : Point) : Axis → Float
  | .x => p.x
  | .y => p.y
  | .z => p.z

theorem Point.isFinite_iff {p : Point} :
    p.isFinite = true ↔ ∀ a, (p.coord a).isFinite = true := by
  unfold isFinite
  rw [Bool.and_eq_true, Bool.and_eq_true]
  constructor
  · rintro ⟨⟨hx, hy⟩, hz⟩ a
    cases a with
    | x => exact hx
    | y => exact hy
    | z => exact hz
  · intro h
    exact ⟨⟨h .x, h .y⟩, h .z⟩

theorem Point.beq_iff {a b : Point} :
    (a == b) = true ↔ ∀ axis : Axis, (a.coord axis == b.coord axis) = true := by
  change (a.x == b.x && (a.y == b.y && a.z == b.z)) = true ↔ _
  rw [Bool.and_eq_true, Bool.and_eq_true]
  constructor
  · rintro ⟨hx, hy, hz⟩ axis
    cases axis with
    | x => exact hx
    | y => exact hy
    | z => exact hz
  · exact fun h => ⟨h .x, h .y, h .z⟩

namespace Box

theorem contains_iff {b : Box} {p : Point} :
    b.contains p = true ↔ ∀ a, b.min.coord a ≤ p.coord a ∧ p.coord a ≤ b.max.coord a := by
  unfold contains
  simp only [Bool.and_eq_true, decide_eq_true_eq]
  constructor
  · rintro ⟨⟨hx, hy⟩, hz⟩ a
    cases a with
    | x => exact hx
    | y => exact hy
    | z => exact hz
  · intro h
    exact ⟨⟨h .x, h .y⟩, h .z⟩

/-- The box is the smallest around the finite points of a list. -/
structure Fits (b : Box) (ps : List Point) : Prop where
  min_isFinite : b.min.isFinite = true
  max_isFinite : b.max.isFinite = true
  ordered : ∀ a, b.min.coord a ≤ b.max.coord a
  contains : ∀ p ∈ ps, p.isFinite = true → b.contains p = true
  touches_min : ∀ a, ∃ p ∈ ps, p.isFinite = true ∧ p.coord a = b.min.coord a
  touches_max : ∀ a, ∃ p ∈ ps, p.isFinite = true ∧ p.coord a = b.max.coord a

/-- No face of one box lies outside the other, and so no point of it. -/
structure Within (b c : Box) : Prop where
  min : ∀ a, c.min.coord a ≤ b.min.coord a
  max : ∀ a, b.max.coord a ≤ c.max.coord a
  contains : ∀ p, b.contains p = true → c.contains p = true

/-- More points never make the box around them smaller. -/
theorem Fits.within {b c : Box} {ps qs : List Point} (hb : b.Fits ps) (hc : c.Fits qs)
    (hsub : ps ⊆ qs) : b.Within c := by
  have hmin : ∀ a, c.min.coord a ≤ b.min.coord a := by
    intro a
    obtain ⟨p, hp, hfinite, hcoord⟩ := hb.touches_min a
    rw [← hcoord]
    exact (contains_iff.mp (hc.contains p (hsub hp) hfinite) a).1
  have hmax : ∀ a, b.max.coord a ≤ c.max.coord a := by
    intro a
    obtain ⟨p, hp, hfinite, hcoord⟩ := hb.touches_max a
    rw [← hcoord]
    exact (contains_iff.mp (hc.contains p (hsub hp) hfinite) a).2
  refine ⟨hmin, hmax, fun p hp => ?_⟩
  rw [contains_iff] at hp ⊢
  intro a
  obtain ⟨hlow, hhigh⟩ := hp a
  have hbmin := Point.isFinite_iff.mp hb.min_isFinite a
  have hbmax := Point.isFinite_iff.mp hb.max_isFinite a
  have hcmin := Point.isFinite_iff.mp hc.min_isFinite a
  have hcmax := Point.isFinite_iff.mp hc.max_isFinite a
  -- The order is transitive on finite doubles only; between two of them there is nothing else.
  have hpa := isFinite_of_le_of_le hbmin hbmax hlow hhigh
  constructor
  · exact le_trans_of_isFinite hcmin hbmin hpa (hmin a) hlow
  · exact le_trans_of_isFinite hpa hbmax hcmax hhigh (hmax a)

/-- Which finite points a list has is all that matters, not their order and number. -/
theorem Fits.congr {b : Box} {ps qs : List Point} (hb : b.Fits ps)
    (hsame : ∀ p, p.isFinite = true → (p ∈ ps ↔ p ∈ qs)) : b.Fits qs where
  min_isFinite := hb.min_isFinite
  max_isFinite := hb.max_isFinite
  ordered := hb.ordered
  contains p hp hfinite := hb.contains p ((hsame p hfinite).mpr hp) hfinite
  touches_min a := by
    obtain ⟨p, hp, hfinite, hcoord⟩ := hb.touches_min a
    exact ⟨p, (hsame p hfinite).mp hp, hfinite, hcoord⟩
  touches_max a := by
    obtain ⟨p, hp, hfinite, hcoord⟩ := hb.touches_max a
    exact ⟨p, (hsame p hfinite).mp hp, hfinite, hcoord⟩

/-- Only one box fits a list, up to the signs of zeros. -/
theorem Fits.beq {b c : Box} {ps : List Point} (hb : b.Fits ps) (hc : c.Fits ps) :
    (b == c) = true := by
  have hbc := hb.within hc (List.Subset.refl ps)
  have hcb := hc.within hb (List.Subset.refl ps)
  change (b.min == c.min && b.max == c.max) = true
  rw [Bool.and_eq_true, Point.beq_iff, Point.beq_iff]
  constructor
  · intro a
    exact beq_of_le_of_le (Point.isFinite_iff.mp hb.min_isFinite a)
      (Point.isFinite_iff.mp hc.min_isFinite a) (hcb.min a) (hbc.min a)
  · intro a
    exact beq_of_le_of_le (Point.isFinite_iff.mp hb.max_isFinite a)
      (Point.isFinite_iff.mp hc.max_isFinite a) (hbc.max a) (hcb.max a)

end Box

namespace Extremes

/-! ### What points do to the extremes -/

variable {ps : List Point}

/-- The coordinates of the finite points along an axis. -/
def coords (ps : List Point) (a : Axis) : List Float :=
  (ps.filter Point.isFinite).map (·.coord a)

/-- A finite point is taken in axis by axis. -/
theorem insert_of_isFinite {p : Point} (h : p.isFinite = true) (e : Extremes) (a : Axis) :
    (e.insert p).min.coord a = lesser (e.min.coord a) (p.coord a) ∧
      (e.insert p).max.coord a = greater (e.max.coord a) (p.coord a) := by
  unfold insert
  rw [if_pos h]
  cases a <;> exact ⟨rfl, rfl⟩

/-- A point that is not finite has no influence. -/
theorem insert_of_not_isFinite {p : Point} (h : ¬ p.isFinite = true) (e : Extremes) :
    e.insert p = e :=
  if_neg h

/-- The six extremes come from six passes over lists of coordinates. -/
theorem coord_insertAll (e : Extremes) (a : Axis) :
    (e.insertAll ps).min.coord a = (coords ps a).foldl lesser (e.min.coord a) ∧
      (e.insertAll ps).max.coord a = (coords ps a).foldl greater (e.max.coord a) := by
  induction ps generalizing e with
  | nil => exact ⟨rfl, rfl⟩
  | cons p ps ih =>
    have hstep : e.insertAll (p :: ps) = (e.insert p).insertAll ps := rfl
    rw [hstep, (ih (e.insert p)).1, (ih (e.insert p)).2]
    by_cases hp : p.isFinite = true
    · obtain ⟨hmin, hmax⟩ := insert_of_isFinite hp e a
      have hcoords : coords (p :: ps) a = p.coord a :: coords ps a := by
        simp [coords, hp]
      rw [hcoords, hmin, hmax]
      exact ⟨rfl, rfl⟩
    · have hcoords : coords (p :: ps) a = coords ps a := by
        simp [coords, hp]
      rw [hcoords, insert_of_not_isFinite hp]
      exact ⟨rfl, rfl⟩

theorem insertAll_append (e : Extremes) (ps qs : List Point) :
    e.insertAll (ps ++ qs) = (e.insertAll ps).insertAll qs :=
  List.foldl_append

/-- Only the finite points of a list matter. -/
theorem insertAll_filter (e : Extremes) (ps : List Point) :
    e.insertAll (ps.filter Point.isFinite) = e.insertAll ps := by
  unfold insertAll
  rw [List.foldl_filter]
  congr 1
  funext e p
  split
  · rfl
  · rename_i hp
    exact (insert_of_not_isFinite hp e).symm

/-! ### The extremes of a list -/

theorem coord_empty (a : Axis) :
    empty.min.coord a = 1.0 / 0.0 ∧ empty.max.coord a = -(1.0 / 0.0) := by
  cases a <;> exact ⟨rfl, rfl⟩

theorem isFinite_of_mem_coords {a : Axis} {v : Float} (h : v ∈ coords ps a) :
    v.isFinite = true := by
  obtain ⟨p, hp, rfl⟩ := List.mem_map.mp h
  exact Point.isFinite_iff.mp (List.mem_filter.mp hp).2 a

theorem mem_coords {p : Point} (hp : p ∈ ps) (hfinite : p.isFinite = true) (a : Axis) :
    p.coord a ∈ coords ps a :=
  List.mem_map_of_mem (List.mem_filter.mpr ⟨hp, hfinite⟩)

/-- Coordinates along an axis are those of finite points. -/
theorem exists_of_mem_coords {a : Axis} {v : Float} (h : v ∈ coords ps a) :
    ∃ p ∈ ps, p.isFinite = true ∧ p.coord a = v := by
  obtain ⟨p, hp, hv⟩ := List.mem_map.mp h
  obtain ⟨hmem, hfinite⟩ := List.mem_filter.mp hp
  exact ⟨p, hmem, hfinite, hv⟩

/-- With a finite point in the list, each extreme is a coordinate of one and bounds them all. -/
theorem isFirst_insertAll (h : ∃ p ∈ ps, p.isFinite = true) (a : Axis) :
    IsFirst (· ≤ ·) ((empty.insertAll ps).min.coord a) (coords ps a) ∧
      IsFirst (· ≥ ·) ((empty.insertAll ps).max.coord a) (coords ps a) := by
  obtain ⟨p, hp, hfinite⟩ := h
  have hne : coords ps a ≠ [] := List.ne_nil_of_mem (mem_coords hp hfinite a)
  rw [(coord_insertAll empty a).1, (coord_insertAll empty a).2, (coord_empty a).1,
    (coord_empty a).2]
  exact ⟨picks_lesser.isFirst_foldl hne fun _ hv => isFinite_of_mem_coords hv,
    picks_greater.isFirst_foldl hne fun _ hv => isFinite_of_mem_coords hv⟩

/-- Finite extremes in the right order on every axis are valid. -/
theorem isValid_of_coord {e : Extremes} (hmin : e.min.isFinite = true)
    (hmax : e.max.isFinite = true) (h : ∀ a, e.min.coord a ≤ e.max.coord a) :
    e.isValid = true := by
  unfold isValid
  simp only [Bool.and_eq_true, decide_eq_true_eq]
  exact ⟨⟨hmin, hmax⟩, ⟨h .x, h .y⟩, h .z⟩

theorem isFinite_insertAll (h : ∃ p ∈ ps, p.isFinite = true) :
    (empty.insertAll ps).min.isFinite = true ∧ (empty.insertAll ps).max.isFinite = true :=
  ⟨Point.isFinite_iff.mpr fun a => isFinite_of_mem_coords (isFirst_insertAll h a).1.mem,
    Point.isFinite_iff.mpr fun a => isFinite_of_mem_coords (isFirst_insertAll h a).2.mem⟩

theorem min_le_max_insertAll (h : ∃ p ∈ ps, p.isFinite = true) (a : Axis) :
    (empty.insertAll ps).min.coord a ≤ (empty.insertAll ps).max.coord a :=
  (isFirst_insertAll h a).1.first _ (isFirst_insertAll h a).2.mem

theorem isValid_insertAll (h : ∃ p ∈ ps, p.isFinite = true) :
    (empty.insertAll ps).isValid = true :=
  isValid_of_coord (isFinite_insertAll h).1 (isFinite_insertAll h).2 (min_le_max_insertAll h)

/-- The box that is found fits the points, as soon as one of them is finite. -/
theorem fits_insertAll (h : ∃ p ∈ ps, p.isFinite = true) :
    (empty.insertAll ps).box.Fits ps := by
  have hfirst := isFirst_insertAll h
  have hbox : (empty.insertAll ps).box =
      ⟨(empty.insertAll ps).min, (empty.insertAll ps).max⟩ :=
    if_pos (isValid_insertAll h)
  rw [hbox]
  constructor
  · exact (isFinite_insertAll h).1
  · exact (isFinite_insertAll h).2
  · exact min_le_max_insertAll h
  · intro p hp hfinite
    rw [Box.contains_iff]
    intro a
    have hcoord := mem_coords hp hfinite a
    exact ⟨(hfirst a).1.first _ hcoord, (hfirst a).2.first _ hcoord⟩
  · intro a
    exact exists_of_mem_coords (hfirst a).1.mem
  · intro a
    exact exists_of_mem_coords (hfirst a).2.mem

/-! ### Any list -/

theorem isValid_empty : empty.isValid = false := by
  decide +kernel

/-- Equal filtered lists go the same way, point by point. -/
theorem insertAll_congr {qs : List Point}
    (h : qs.filter Point.isFinite = ps.filter Point.isFinite) (e : Extremes) :
    e.insertAll qs = e.insertAll ps := by
  rw [← insertAll_filter, h, insertAll_filter]

theorem insertAll_of_not_exists (h : ¬ ∃ p ∈ ps, p.isFinite = true) (e : Extremes) :
    e.insertAll ps = e := by
  have hnone : ps.filter Point.isFinite = [] :=
    List.filter_eq_nil_iff.mpr fun p hp hfinite => h ⟨p, hp, hfinite⟩
  rw [← insertAll_filter, hnone]
  rfl

/-- The extremes are valid exactly if a finite point was seen. -/
theorem isValid_insertAll_iff :
    (empty.insertAll ps).isValid = true ↔ ∃ p ∈ ps, p.isFinite = true := by
  refine ⟨fun hvalid => ?_, isValid_insertAll⟩
  by_contra hnone
  rw [insertAll_of_not_exists hnone, isValid_empty] at hvalid
  cases hvalid

/-- The same finite points have the same box, in whatever order and however often they come. -/
theorem box_insertAll_beq {qs : List Point}
    (hsame : ∀ p, p.isFinite = true → (p ∈ qs ↔ p ∈ ps)) :
    ((empty.insertAll qs).box == (empty.insertAll ps).box) = true := by
  by_cases hps : ∃ p ∈ ps, p.isFinite = true
  · obtain ⟨p, hp, hfinite⟩ := hps
    have hqs := fits_insertAll ⟨p, (hsame p hfinite).mpr hp, hfinite⟩
    exact (hqs.congr hsame).beq (fits_insertAll ⟨p, hp, hfinite⟩)
  · have hqs : ¬ ∃ q ∈ qs, q.isFinite = true := by
      rintro ⟨q, hq, hfinite⟩
      exact hps ⟨q, (hsame q hfinite).mp hq, hfinite⟩
    rw [insertAll_of_not_exists hps, insertAll_of_not_exists hqs]
    decide +kernel

/-- On every axis the extremes are the least and the greatest coordinate of the finite points of a
list. Without such a point nothing was seen. -/
structure Exact (e : Extremes) (ps : List Point) : Prop where
  isValid_iff : e.isValid = true ↔ ∃ p ∈ ps, p.isFinite = true
  least : e.isValid = true → ∀ a, IsFirst (· ≤ ·) (e.min.coord a) (coords ps a)
  greatest : e.isValid = true → ∀ a, IsFirst (· ≥ ·) (e.max.coord a) (coords ps a)
  box : e.isValid = true → e.box = ⟨e.min, e.max⟩
  fresh : e.isValid = false → e = empty ∧ e.box = .unit

/-- The extremes of some points are exact. -/
theorem exact_insertAll (ps : List Point) : (empty.insertAll ps).Exact ps where
  isValid_iff := isValid_insertAll_iff
  least hvalid a := (isFirst_insertAll (isValid_insertAll_iff.mp hvalid) a).1
  greatest hvalid a := (isFirst_insertAll (isValid_insertAll_iff.mp hvalid) a).2
  box hvalid := if_pos hvalid
  fresh hinvalid := by
    have hnone : ¬ ∃ p ∈ ps, p.isFinite = true :=
      fun h => Bool.eq_false_iff.mp hinvalid (isValid_insertAll h)
    exact ⟨insertAll_of_not_exists hnone _, if_neg (Bool.eq_false_iff.mp hinvalid)⟩

/-- The extremes of every list of points are exact. Points that are not finite change nothing of
them, and order and repetition nothing of the box but the signs of zeros. After any part of the
points the box has all finite ones among them. -/
theorem extremes_exact (ps : List Point) :
    (empty.insertAll ps).Exact ps ∧
      (∀ qs : List Point, qs.filter Point.isFinite = ps.filter Point.isFinite →
        empty.insertAll qs = empty.insertAll ps) ∧
      (∀ qs : List Point, (∀ p, p.isFinite = true → (p ∈ qs ↔ p ∈ ps)) →
        ((empty.insertAll qs).box == (empty.insertAll ps).box) = true) ∧
      ∀ n, ∀ p ∈ ps.take n, p.isFinite = true →
        (empty.insertAll (ps.take n)).box.contains p = true := by
  refine ⟨exact_insertAll ps, fun qs hsame => insertAll_congr hsame _,
    fun qs => box_insertAll_beq, ?_⟩
  intro n p hp hfinite
  exact (fits_insertAll ⟨p, hp, hfinite⟩).contains p hp hfinite

end Extremes

end Milling
