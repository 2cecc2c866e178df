import Mathlib.Data.List.Basic
import Milling.Program.Basic
/-!
Segments by the indices of their ends.

The toolpath is passed over in pairs of neighbours. Here each pair is told by the index of the point
it starts from, so that what a pass keeps, and in which order, can be said of indices alone.
-/

namespace Milling.Program

variable {p : Program} {index : Nat} {t : ToolPoint}

/-- The point at an index. Beyond the toolpath the tool is as at the start. -/
def pointAt (p : Program) (index : Nat) : ToolPoint :=
  (p.point? index).getD .start

/-- A point is found at an index exactly if the toolpath has it there. -/
theorem point?_eq_some_iff : p.point? index = some t ↔ index < p.size ∧ p.pointAt index = t := by
  unfold pointAt point? size
  constructor
  · intro h
    exact ⟨(Array.getElem?_eq_some_iff.mp h).1, by rw [h, Option.getD_some]⟩
  · rintro ⟨hlt, rfl⟩
    rw [Array.getElem?_eq_getElem hlt, Option.getD_some]

theorem point?_of_lt (h : index < p.size) : p.point? index = some (p.pointAt index) :=
  point?_eq_some_iff.mpr ⟨h, rfl⟩

theorem length_toolpath (p : Program) : p.toolpath.toList.length = p.size :=
  Array.length_toList

theorem getElem_toolpath (h : index < p.toolpath.toList.length) :
    p.toolpath.toList[index] = p.pointAt index := by
  refine Option.some.inj ?_
  rw [← List.getElem?_eq_getElem h, Array.getElem?_toList]
  exact point?_of_lt (p.length_toolpath ▸ h)

/-- The segments in the order of the toolpath. -/
theorem segments_eq (p : Program) :
    p.segments = (List.range p.lastIndex).map fun i => (p.pointAt i, p.pointAt (i + 1)) := by
  unfold segments
  refine List.ext_getElem ?_ fun i _ _ => ?_
  · rw [List.length_zip, List.length_tail, length_toolpath, List.length_map, List.length_range,
      lastIndex]
    omega
  · rw [List.getElem_zip, List.getElem_tail, getElem_toolpath, getElem_toolpath, List.getElem_map,
      List.getElem_range]

/-- A numbered segment has the number of the point it starts from. -/
theorem zipIdx_segments (p : Program) :
    p.segments.zipIdx =
      (List.range p.lastIndex).map fun i => ((p.pointAt i, p.pointAt (i + 1)), i) := by
  rw [segments_eq]
  refine List.ext_getElem ?_ fun i _ _ => ?_
  · simp
  · simp

/-- The points after the start with their indices. -/
theorem drop_zipIdx_toolpath (p : Program) :
    p.toolpath.toList.zipIdx.drop 1 =
      (List.range' 1 p.lastIndex).map fun i => (p.pointAt i, i) := by
  refine List.ext_getElem ?_ fun i _ _ => ?_
  · rw [List.length_drop, List.length_zipIdx, length_toolpath, List.length_map, List.length_range',
      lastIndex]
  · rw [List.getElem_drop, List.getElem_zipIdx, getElem_toolpath, List.getElem_map,
      List.getElem_range', Nat.zero_add, Nat.one_mul]

end Milling.Program
