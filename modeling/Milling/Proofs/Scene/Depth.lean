import Milling.Proofs.Program.Bounds
import Milling.Proofs.Program.Segments
import Milling.Scene.Depth
/-!
What a window of heights shows.

The segments that a window shows are a selection from all segments in their order (`visible_eq`),
so a window around another one shows at least as much (`visible_sublist`). The full window is as
high as the box of the program, which passes over places that are not finite and fits the others, so
it shows every segment between finite points (`mem_visible_full`). `filters_compile` puts this
together for every compiled text.
-/

namespace Milling.DepthWindow

/-- The toolpath has a point at an index, with a height in the window. -/
def HoldsAt (w : DepthWindow) (p : Program) (index : Nat) : Prop :=
  ∃ t, p.point? index = some t ∧ w.min ≤ t.position.z ∧ t.position.z ≤ w.max

/-- Windows select from the segments of a program, each by the indices of its ends: exactly those
with both heights in the window, in their order. A larger window shows more, and the full one all
that lies between finite points. -/
structure Filters (p : Program) : Prop where
  mem_iff : ∀ (w : DepthWindow) i j,
    (i, j) ∈ w.visible p ↔ j = i + 1 ∧ w.HoldsAt p i ∧ w.HoldsAt p j
  increasing : ∀ w : DepthWindow, (w.visible p).Pairwise fun s t => s.1 < t.1
  contained : ∀ w w' : DepthWindow, (∀ z, w.contains z = true → w'.contains z = true) →
    (w.visible p).Sublist (w'.visible p)
  nested : ∀ w w' : DepthWindow, w'.min ≤ w.min → w.max ≤ w'.max →
    (w.visible p).Sublist (w'.visible p)
  full : ∀ i a b, p.point? i = some a → p.point? (i + 1) = some b →
    a.position.isFinite = true → b.position.isFinite = true → (i, i + 1) ∈ (full p.bounds).visible p
  whole : (∀ t ∈ p.toolpath, t.position.isFinite = true) →
    (DepthWindow.full p.bounds).visible p = (List.range p.lastIndex).map fun i => (i, i + 1)

variable {w w' : DepthWindow} {p : Program} {i j : Nat}

/-! ### The segments in a window -/

theorem contains_iff {z : Float} : w.contains z = true ↔ w.min ≤ z ∧ z ≤ w.max := by
  unfold contains
  rw [Bool.and_eq_true, decide_eq_true_eq, decide_eq_true_eq]

/-- The visible segments are filtered from all segments by the heights of their ends. -/
theorem visible_eq (w : DepthWindow) (p : Program) :
    w.visible p =
      ((List.range p.lastIndex).filter fun i =>
        w.showsSegment (p.pointAt i, p.pointAt (i + 1))).map fun i => (i, i + 1) := by
  rw [visible, Program.zipIdx_segments, List.filter_map, List.map_map]
  rfl

theorem holdsAt_iff :
    w.HoldsAt p i ↔ i < p.size ∧ w.contains (p.pointAt i).position.z = true := by
  rw [contains_iff]
  constructor
  · rintro ⟨t, ht, hheight⟩
    obtain ⟨hlt, rfl⟩ := Program.point?_eq_some_iff.mp ht
    exact ⟨hlt, hheight⟩
  · rintro ⟨hlt, hheight⟩
    exact ⟨_, Program.point?_of_lt hlt, hheight⟩

/-- A segment is visible exactly if the window holds both of its ends. -/
theorem mem_visible_iff :
    (i, j) ∈ w.visible p ↔ j = i + 1 ∧ w.HoldsAt p i ∧ w.HoldsAt p j := by
  simp only [visible_eq, List.mem_map, List.mem_filter, List.mem_range, showsSegment,
    Bool.and_eq_true, Prod.mk.injEq, holdsAt_iff, Program.lastIndex]
  constructor
  · rintro ⟨i, ⟨hlast, hstart, hend⟩, rfl, rfl⟩
    exact ⟨rfl, ⟨by omega, hstart⟩, by omega, hend⟩
  · rintro ⟨rfl, ⟨-, hstart⟩, hsize, hend⟩
    exact ⟨i, ⟨by omega, hstart, hend⟩, rfl, rfl⟩

theorem pairwise_visible (w : DepthWindow) (p : Program) :
    (w.visible p).Pairwise fun s t => s.1 < t.1 := by
  rw [visible_eq, List.pairwise_map]
  exact List.pairwise_lt_range.filter _

/-- A larger window shows the same segments and more. -/
theorem visible_sublist (h : ∀ z, w.contains z = true → w'.contains z = true) (p : Program) :
    (w.visible p).Sublist (w'.visible p) := by
  rw [visible_eq, visible_eq]
  refine List.Sublist.map _ (List.monotone_filter_right _ fun i hi => ?_)
  rw [showsSegment, Bool.and_eq_true] at hi ⊢
  exact ⟨h _ hi.1, h _ hi.2⟩

/-- A window whose ends are beyond those of another one has all its heights. -/
theorem contains_of_nested (hmin : w'.min ≤ w.min) (hmax : w.max ≤ w'.max) {z : Float}
    (h : w.contains z = true) : w'.contains z = true := by
  rw [contains_iff] at h ⊢
  exact ⟨Binary64.le_trans hmin h.1, Binary64.le_trans h.2 hmax⟩

/-! ### The full window -/

theorem holdsAt_of_contains {b : Box} {t : ToolPoint} (ht : p.point? i = some t)
    (h : b.contains t.position = true) : (full b).HoldsAt p i :=
  ⟨t, ht, Box.contains_iff.mp h .z⟩

section Full

open Program

variable {source : String} {a b : ToolPoint}

/-- The full window holds every finite point of a program that moves. -/
theorem holdsAt_full (hmoves : (compile source).size ≠ 1)
    (ha : (compile source).point? i = some a) (hfinite : a.position.isFinite = true) :
    (full (compile source).bounds).HoldsAt (compile source) i := by
  have hmem : a ∈ (compile source).toolpath.toList :=
    Array.mem_toList_iff.mpr (Array.mem_of_getElem? ha)
  have hplace : a.position ∈ (compile source).places :=
    List.mem_append_left _ (List.mem_map_of_mem hmem)
  exact holdsAt_of_contains ha ((fits_of_moves hmoves).contains _ hplace hfinite)

/-- The full window shows every segment between finite points. -/
theorem mem_visible_full (ha : (compile source).point? i = some a)
    (hb : (compile source).point? (i + 1) = some b) (hafinite : a.position.isFinite = true)
    (hbfinite : b.position.isFinite = true) :
    (i, i + 1) ∈ (full (compile source).bounds).visible (compile source) := by
  have hmoves : (compile source).size ≠ 1 := by
    have hlt := (point?_eq_some_iff.mp hb).1
    omega
  exact mem_visible_iff.mpr ⟨rfl, holdsAt_full hmoves ha hafinite, holdsAt_full hmoves hb hbfinite⟩

/-- The full window shows a finite program as a whole. -/
theorem visible_full_of_isFinite
    (h : ∀ t ∈ (compile source).toolpath, t.position.isFinite = true) :
    (full (compile source).bounds).visible (compile source) =
      (List.range (compile source).lastIndex).map fun i => (i, i + 1) := by
  rw [visible_eq]
  refine congrArg _ (List.filter_eq_self.mpr fun i hi => ?_)
  have hlast : i < (compile source).size - 1 := List.mem_range.mp hi
  have ha : (compile source).point? i = some ((compile source).pointAt i) :=
    point?_of_lt (by omega)
  have hb : (compile source).point? (i + 1) = some ((compile source).pointAt (i + 1)) :=
    point?_of_lt (by omega)
  have hshown := mem_visible_full ha hb (h _ (Array.mem_of_getElem? ha))
    (h _ (Array.mem_of_getElem? hb))
  obtain ⟨-, hstart, hend⟩ := mem_visible_iff.mp hshown
  rw [showsSegment, (holdsAt_iff.mp hstart).2, (holdsAt_iff.mp hend).2, Bool.and_self]

end Full

/-- The windows of heights on every compiled text. -/
theorem filters_compile (source : String) : Filters (Program.compile source) where
  mem_iff _ _ _ := mem_visible_iff
  increasing w := pairwise_visible w _
  contained _ _ h := visible_sublist h _
  nested _ _ hmin hmax := visible_sublist (fun _ => contains_of_nested hmin hmax) _
  full _ _ _ := mem_visible_full
  whole := visible_full_of_isFinite

end Milling.DepthWindow
