import Mathlib.Data.List.Sort
import Milling.Proofs.Program.Segments
import Milling.Scene.Status
/-!
The split of a program at a point.

A segment has the index of the point it leads to, so the indices of the segments are those from 1 to
the last. Each list of the split is a selection of these in their order (`completed_ofProgram`,
`remaining_ofProgram`), and `divides_ofProgram` says that no index is lost or listed twice, wherever
the split is made.
-/

namespace Milling

theorem MoveKind.not_beq_rapid (k : MoveKind) : (!(k == .rapid)) = (k == .cutting) := by
  cases k <;> rfl

/-- How the tool reaches the point at an index. -/
def Program.kindAt? (p : Program) (index : Nat) : Option MoveKind :=
  (p.point? index).map (·.kind)

namespace Progress

def remaining (s : Progress) : MoveKind → List Nat
  | .rapid => s.rapid
  | .cutting => s.cutting

def parts (s : Progress) : List (List Nat) :=
  [s.completed, s.cutting, s.rapid]

/-- The lists hold the segments of a program: those that lead up to the point `current` are
completed, the others remain with the kind of the point they lead to. -/
structure Divides (p : Program) (current : Nat) (s : Progress) : Prop where
  completed : s.completed = List.range' 1 (min current p.lastIndex)
  remaining : ∀ kind i, i ∈ s.remaining kind ↔ current < i ∧ p.kindAt? i = some kind
  increasing : ∀ part ∈ s.parts, part.Pairwise (· < ·)
  disjoint : s.parts.Pairwise List.Disjoint
  covers : ∀ i, (∃ part ∈ s.parts, i ∈ part) ↔ 1 ≤ i ∧ i ≤ p.lastIndex

variable {p : Program} {current i : Nat} {kind : MoveKind}

/-! ### The lists of a split -/

theorem map_filter_indexed (p : Program) (keeps : ToolPoint × Nat → Bool) :
    ((indexed p).filter keeps).map (·.2) =
      (List.range' 1 p.lastIndex).filter fun i => keeps (p.pointAt i, i) := by
  rw [indexed, Program.drop_zipIdx_toolpath, List.filter_map, List.map_map]
  exact List.map_id _

/-- The segments up to the current point are completed. -/
theorem completed_ofProgram (p : Program) (current : Nat) :
    (ofProgram p current).completed = List.range' 1 (min current p.lastIndex) := by
  simp only [ofProgram, List.partition_eq_filter_filter, map_filter_indexed]
  refine List.Pairwise.eq_of_mem_iff (List.Pairwise.filter _ List.pairwise_lt_range')
    List.pairwise_lt_range' fun i => ?_
  simp only [List.mem_filter, List.mem_range'_1, decide_eq_true_eq]
  omega

/-- The segments after the current point remain, each with the kind of its move. -/
theorem remaining_ofProgram (p : Program) (current : Nat) (kind : MoveKind) :
    (ofProgram p current).remaining kind =
      (List.range' 1 p.lastIndex).filter fun i =>
        decide (current < i) && (p.pointAt i).kind == kind := by
  have hleft : ∀ i, (!decide (i ≤ current)) = decide (current < i) := fun i => by
    rw [← decide_not, decide_eq_decide, Nat.not_le]
  cases kind <;>
    simp only [ofProgram, remaining, List.partition_eq_filter_filter, List.filter_filter,
      map_filter_indexed, Function.comp_apply, hleft, MoveKind.not_beq_rapid, Bool.and_comm]

theorem pairwise_remaining (p : Program) (current : Nat) (kind : MoveKind) :
    ((ofProgram p current).remaining kind).Pairwise (· < ·) := by
  rw [remaining_ofProgram]
  exact List.Pairwise.filter _ List.pairwise_lt_range'

/-! ### The indices in the lists -/

theorem kindAt?_eq_some_iff :
    p.kindAt? i = some kind ↔ i < p.size ∧ (p.pointAt i).kind = kind := by
  unfold Program.kindAt?
  rw [Option.map_eq_some_iff]
  constructor
  · rintro ⟨t, ht, rfl⟩
    obtain ⟨hlt, rfl⟩ := Program.point?_eq_some_iff.mp ht
    exact ⟨hlt, rfl⟩
  · rintro ⟨hlt, rfl⟩
    exact ⟨_, Program.point?_of_lt hlt, rfl⟩

theorem mem_completed_iff :
    i ∈ (ofProgram p current).completed ↔ 1 ≤ i ∧ i ≤ current ∧ i ≤ p.lastIndex := by
  rw [completed_ofProgram, List.mem_range'_1]
  omega

theorem mem_remaining_iff :
    i ∈ (ofProgram p current).remaining kind ↔ current < i ∧ p.kindAt? i = some kind := by
  rw [remaining_ofProgram, kindAt?_eq_some_iff]
  simp only [List.mem_filter, List.mem_range'_1, Bool.and_eq_true, decide_eq_true_eq, beq_iff_eq,
    Program.lastIndex]
  constructor
  · rintro ⟨hrange, hcurrent, hkind⟩
    exact ⟨hcurrent, by omega, hkind⟩
  · rintro ⟨hcurrent, hlt, hkind⟩
    exact ⟨by omega, hcurrent, hkind⟩

/-- A segment that is not completed has a kind. -/
theorem exists_mem_remaining (hcurrent : current < i) (hlast : i ≤ p.lastIndex) :
    ∃ kind, i ∈ (ofProgram p current).remaining kind := by
  refine ⟨(p.pointAt i).kind, mem_remaining_iff.mpr ⟨hcurrent, kindAt?_eq_some_iff.mpr ⟨?_, rfl⟩⟩⟩
  unfold Program.lastIndex at hlast
  omega

theorem mem_parts_iff {s : Progress} {part : List Nat} :
    part ∈ s.parts ↔ part = s.completed ∨ ∃ kind, part = s.remaining kind := by
  simp only [parts, List.mem_cons, List.not_mem_nil, or_false]
  constructor
  · rintro (h | h | h)
    · exact Or.inl h
    · exact Or.inr ⟨.cutting, h⟩
    · exact Or.inr ⟨.rapid, h⟩
  · rintro (h | ⟨kind, h⟩)
    · exact Or.inl h
    · cases kind
      · exact Or.inr (Or.inr h)
      · exact Or.inr (Or.inl h)

theorem disjoint_completed (p : Program) (current : Nat) (kind : MoveKind) :
    (ofProgram p current).completed.Disjoint ((ofProgram p current).remaining kind) := by
  intro i hdone hleft
  have hcurrent := (mem_completed_iff.mp hdone).2.1
  exact Nat.not_le.mpr (mem_remaining_iff.mp hleft).1 hcurrent

theorem disjoint_remaining {kind' : MoveKind} (hkind : kind ≠ kind') :
    ((ofProgram p current).remaining kind).Disjoint ((ofProgram p current).remaining kind') := by
  intro i hi hi'
  have hsame := (mem_remaining_iff.mp hi).2.symm.trans (mem_remaining_iff.mp hi').2
  exact hkind (Option.some.inj hsame)

/-- Every segment is in one of the lists, and nothing else is. -/
theorem exists_mem_parts_iff :
    (∃ part ∈ (ofProgram p current).parts, i ∈ part) ↔ 1 ≤ i ∧ i ≤ p.lastIndex := by
  constructor
  · rintro ⟨part, hpart, hi⟩
    rcases mem_parts_iff.mp hpart with rfl | ⟨kind, rfl⟩
    · obtain ⟨hfirst, -, hlast⟩ := mem_completed_iff.mp hi
      exact ⟨hfirst, hlast⟩
    · rw [remaining_ofProgram] at hi
      have hrange := List.mem_range'_1.mp (List.mem_of_mem_filter hi)
      omega
  · rintro ⟨hfirst, hlast⟩
    rcases Nat.lt_or_ge current i with hleft | hdone
    · obtain ⟨kind, hmem⟩ := exists_mem_remaining hleft hlast
      exact ⟨_, mem_parts_iff.mpr (Or.inr ⟨kind, rfl⟩), hmem⟩
    · exact ⟨_, mem_parts_iff.mpr (Or.inl rfl), mem_completed_iff.mpr ⟨hfirst, hdone, hlast⟩⟩

/-- Every split of every program, also at 0 and beyond the last point. -/
theorem divides_ofProgram (p : Program) (current : Nat) :
    (ofProgram p current).Divides p current where
  completed := completed_ofProgram p current
  remaining _ _ := mem_remaining_iff
  increasing := by
    intro part hpart
    rcases mem_parts_iff.mp hpart with rfl | ⟨kind, rfl⟩
    · rw [completed_ofProgram]
      exact List.pairwise_lt_range'
    · exact pairwise_remaining p current kind
  disjoint := by
    have hkinds : ((ofProgram p current).remaining .cutting).Disjoint
        ((ofProgram p current).remaining .rapid) := disjoint_remaining nofun
    refine List.Pairwise.cons ?_ (List.pairwise_pair.mpr hkinds)
    intro part hpart
    rcases List.mem_pair.mp hpart with rfl | rfl
    · exact disjoint_completed p current .cutting
    · exact disjoint_completed p current .rapid
  covers _ := exists_mem_parts_iff

end Progress

end Milling
