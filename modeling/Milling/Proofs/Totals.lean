import Milling.Proofs.Program.Lookup
import Milling.Proofs.Scene.Progress
import Milling.Totals
/-!
Totals as sums over the split of a program.

One pass over the legs adds up all totals at once. Each of them is what a pass of its own finds,
over just the legs that change it (`part_ofProgram`). The legs of a kind are the segments that the
split at 0 leaves for it (`filter_legs`), so the totals and the split tell of the same segments,
though they pass over the toolpath in different ways. `accounts_compile` says so for every compiled
text.
-/

namespace Milling

namespace Program

/-- The distance from the point before an index to the point at it. -/
def stretch (p : Program) (index : Nat) : Float :=
  (p.pointAt (index - 1)).position.distance (p.pointAt index).position

/-- The command that sends the tool to the point at an index is an arc. -/
def isArcAt (p : Program) (index : Nat) : Bool :=
  (p.commandOf? index).any (·.motion.isArc)

end Program

namespace Totals

def sum (xs : List Float) : Float :=
  xs.foldl (· + ·) 0.0

def distanceOf (t : Totals) : MoveKind → Float
  | .rapid => t.rapidDistance
  | .cutting => t.cuttingDistance

def movesOf (t : Totals) : MoveKind → Nat
  | .rapid => t.rapidMoves
  | .cutting => t.cuttingMoves

/-- The totals tell of the segments of a program, each by the index of the point it leads to: those
of a kind are the ones that the split at 0 leaves for it. -/
structure Accounts (p : Program) (t : Totals) : Prop where
  movesOf : ∀ kind, t.movesOf kind = ((Progress.ofProgram p 0).remaining kind).length
  moves : t.moves + 1 = p.size
  arcMoves : t.arcMoves = ((List.range' 1 p.lastIndex).filter p.isArcAt).length
  cutting : ∀ i, 1 ≤ i → p.isArcAt i = true → p.kindAt? i = some .cutting
  distanceOf : ∀ kind,
    t.distanceOf kind = sum (((Progress.ofProgram p 0).remaining kind).map p.stretch)
  distance : t.distance = sum ((List.range' 1 p.lastIndex).map p.stretch)

/-! ### One total of many -/

section Pass

variable {kind : MoveKind}

theorem distanceOf_add (t : Totals) (l : Leg) :
    (t.add l).distanceOf kind =
      if l.kind == kind then t.distanceOf kind + l.distance else t.distanceOf kind := by
  unfold add
  cases l.kind <;> cases kind <;> rfl

theorem movesOf_add (t : Totals) (l : Leg) :
    (t.add l).movesOf kind = if l.kind == kind then t.movesOf kind + 1 else t.movesOf kind := by
  unfold add
  cases l.kind <;> cases kind <;> rfl

theorem distance_add (t : Totals) (l : Leg) : (t.add l).distance = t.distance + l.distance := by
  unfold add
  cases l.kind <;> rfl

theorem arcMoves_add (t : Totals) (l : Leg) :
    (t.add l).arcMoves = if l.kind == .cutting && l.isArc then t.arcMoves + 1 else t.arcMoves := by
  unfold add
  cases l.kind <;> rfl

/-- A part of the totals without the time is made by the legs that change it, in their order. -/
theorem part_ofProgram {β : Type} (part : Totals → β) (counts : Leg → Bool) (change : β → Leg → β)
    (hadd : ∀ t l, part (t.add l) = if counts l then change (part t) l else part t)
    (hseconds : ∀ t s, part { t with seconds := s } = part t) (p : Program) :
    part (ofProgram p) = ((legs p).filter counts).foldl change (part zero) := by
  rw [List.foldl_filter]
  exact (hseconds _ _).trans (List.foldl_hom part fun t l => (hadd t l).symm).symm

end Pass

/-! ### Legs by the indices of their segments -/

/-- The leg to the point at an index. -/
def legTo (p : Program) (index : Nat) : Leg :=
  ⟨p.stretch index, (p.pointAt index).kind, p.commandAt? (p.pointAt index).line⟩

/-- There is one leg to every point after the start. -/
theorem legs_eq (p : Program) : legs p = (List.range' 1 p.lastIndex).map (legTo p) := by
  rw [legs, Program.segments_eq, List.map_map, List.range'_eq_map_range, List.map_map]
  refine List.map_congr_left fun i _ => ?_
  simp only [Function.comp_apply, legTo, Program.stretch, Nat.add_comm 1 i, Nat.add_sub_cancel]

/-- The legs of a kind lead to the points that the split at the start leaves for it. -/
theorem filter_legs (p : Program) (kind : MoveKind) :
    (legs p).filter (·.kind == kind) =
      ((Progress.ofProgram p 0).remaining kind).map (legTo p) := by
  rw [legs_eq, List.filter_map, Progress.remaining_ofProgram]
  refine congrArg _ (List.filter_congr fun i hi => ?_)
  have hfirst : 0 < i := (List.mem_range'_1.mp hi).1
  simp only [Function.comp_apply, legTo, hfirst, decide_true, Bool.true_and]

/-- The distance of a kind is the sum over the segments of this kind, from the first to the last. -/
theorem distanceOf_ofProgram (p : Program) (kind : MoveKind) :
    (ofProgram p).distanceOf kind =
      sum (((Progress.ofProgram p 0).remaining kind).map p.stretch) := by
  refine (part_ofProgram (·.distanceOf kind) (·.kind == kind) (fun d l => d + l.distance)
    distanceOf_add (fun _ _ => by cases kind <;> rfl) p).trans ?_
  rw [filter_legs, List.foldl_map, sum, List.foldl_map]
  cases kind <;> rfl

theorem movesOf_ofProgram (p : Program) (kind : MoveKind) :
    (ofProgram p).movesOf kind = ((Progress.ofProgram p 0).remaining kind).length := by
  refine (part_ofProgram (·.movesOf kind) (·.kind == kind) (fun n _ => n + 1)
    movesOf_add (fun _ _ => by cases kind <;> rfl) p).trans ?_
  rw [filter_legs, List.foldl_add_const, List.length_map, Nat.one_mul]
  cases kind <;> exact Nat.zero_add _

theorem distance_ofProgram (p : Program) :
    (ofProgram p).distance = sum ((List.range' 1 p.lastIndex).map p.stretch) := by
  refine (part_ofProgram Totals.distance (fun _ => true) (fun d l => d + l.distance)
    distance_add (fun _ _ => rfl) p).trans ?_
  rw [List.filter_true, legs_eq, List.foldl_map, sum, List.foldl_map]
  rfl

/-- Arcs are counted among the cutting moves. -/
theorem arcMoves_ofProgram (p : Program) :
    (ofProgram p).arcMoves = ((legs p).filter fun l => l.kind == .cutting && l.isArc).length := by
  refine (part_ofProgram Totals.arcMoves _ (fun n _ => n + 1) arcMoves_add
    (fun _ _ => rfl) p).trans ?_
  rw [List.foldl_add_const, Nat.one_mul]
  exact Nat.zero_add _

/-- A leg is of one of two kinds. -/
theorem moves_ofProgram (p : Program) : (ofProgram p).moves = p.lastIndex := by
  have h := List.length_eq_length_filter_add (l := legs p) (fun l => l.kind == .rapid)
  simp only [MoveKind.not_beq_rapid, filter_legs, List.length_map, ← movesOf_ofProgram] at h
  rw [legs_eq, List.length_map, List.length_range'] at h
  exact h.symm

theorem isArc_legTo {p : Program} {i : Nat} (h : i < p.size) :
    (legTo p i).isArc = p.isArcAt i := by
  rw [Program.isArcAt, Program.commandOf?, Program.point?_of_lt h, Option.bind_some]
  unfold Leg.isArc legTo
  cases p.commandAt? (p.pointAt i).line <;> rfl

section Compiled

open Program

variable {source : String} {i : Nat}

/-- Arcs are cut, since the kind of a point follows the motion of the command that leads there. -/
theorem kindAt?_of_isArcAt (hfirst : 1 ≤ i) (h : (compile source).isArcAt i = true) :
    (compile source).kindAt? i = some .cutting := by
  obtain ⟨c, hc, harc⟩ := (Option.any_eq_true _ _).mp h
  obtain ⟨t, ht, hat⟩ := Option.bind_eq_some_iff.mp hc
  obtain ⟨d, hmem, hline, -, -, hkind⟩ := sender_of_mem (mem_moves_of_point? hfirst ht)
  obtain rfl : d = c := by
    have hfound := (commandAt?_eq_some_iff (lines_increasing source)).mpr ⟨hmem, hline⟩
    exact Option.some.inj (hfound.symm.trans hat)
  rw [kindAt?, ht, Option.map_some]
  cases hrapid : t.kind with
  | rapid =>
    rw [hkind.mp hrapid] at harc
    cases harc
  | cutting => rfl

/-- Among the legs that are cut, those of arcs are found by their commands alone. -/
theorem length_filter_isArc (source : String) :
    ((legs (compile source)).filter fun l => l.kind == .cutting && l.isArc).length =
      ((List.range' 1 (compile source).lastIndex).filter (compile source).isArcAt).length := by
  rw [legs_eq, List.filter_map, List.length_map]
  refine congrArg _ (List.filter_congr fun i hi => ?_)
  obtain ⟨hfirst, hlast⟩ := List.mem_range'_1.mp hi
  have hsize : i < (compile source).size := by
    unfold lastIndex at hlast
    omega
  rw [Function.comp_apply, isArc_legTo hsize]
  cases harc : (compile source).isArcAt i with
  | false => rw [Bool.and_false]
  | true =>
    have hkind := (Progress.kindAt?_eq_some_iff.mp (kindAt?_of_isArcAt hfirst harc)).2
    rw [Bool.and_true, legTo, hkind]
    rfl

end Compiled

/-- The totals of every compiled text and the splits of its program at all points tell of the same
segments. -/
theorem accounts_compile (source : String) :
    (ofProgram (Program.compile source)).Accounts (Program.compile source) ∧
      ∀ current, (Progress.ofProgram (Program.compile source) current).Divides
        (Program.compile source) current where
  left :=
    { movesOf := movesOf_ofProgram _
      moves := by
        have hpos := Program.size_compile_pos source
        rw [moves_ofProgram, Program.lastIndex, Nat.sub_add_cancel hpos]
      arcMoves := (arcMoves_ofProgram _).trans (length_filter_isArc source)
      cutting := fun _ hfirst harc => kindAt?_of_isArcAt hfirst harc
      distanceOf := distanceOf_ofProgram _
      distance := distance_ofProgram _ }
  right := Progress.divides_ofProgram _

end Totals

end Milling
