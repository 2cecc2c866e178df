import Milling.Proofs.Program.SourceMap
import Milling.Proofs.Space.Extremes
/-!
The box of a compiled program.

The box is around the places of the program: the positions of the toolpath and the positions that
its commands ask for, which an arc may miss (`Program.places`). It fits these places, and those that
are not finite have no influence on it. A program that does not move has the unit cube instead.
-/

namespace Milling.Program

def targets (p : Program) : List Point :=
  p.commands.toList.filterMap fun c => if c.hasAxis then some (p.targetAt c.line) else none

/-- The positions of the toolpath and those that commands ask for. -/
def places (p : Program) : List Point :=
  p.toolpath.toList.map (·.position) ++ p.targets

section Compiled

variable {source : String}

/-- The target of a step is the commanded position at its line, if it names an axis. -/
theorem target_of_split {pre post : List Step} {s : Step}
    (h : stepsOf source = pre ++ s :: post) :
    s.target =
      if s.command.hasAxis then some ((compile source).targetAt s.command.line) else none := by
  obtain ⟨m, hagrees, line, b, rfl⟩ := Machine.steps_split Machine.agrees_initial h
  rw [Machine.step_target, Machine.targetOf_eq_latestTarget hagrees]
  unfold targetAt upTo
  rw [filter_le_of_split (lines_increasing source) (commands_split h)]
  simp

/-- What the run collects are the targets of the command list. -/
theorem targets_compile (source : String) :
    (compile source).targets = (stepsOf source).filterMap (·.target) := by
  unfold targets
  rw [toList_commands_compile, List.filterMap_map]
  refine List.filterMap_congr fun s hs => ?_
  obtain ⟨pre, post, hsplit⟩ := List.append_of_mem hs
  exact (target_of_split hsplit).symm

theorem origin_mem_places (source : String) : Point.origin ∈ (compile source).places := by
  unfold places
  rw [toList_toolpath_compile]
  exact List.mem_append_left _ List.mem_cons_self

theorem isFinite_origin : Point.origin.isFinite = true := by
  decide +kernel

/-- The box of a program holds its places; a program that does not move has the unit cube. -/
theorem bounds_eq (source : String) :
    (compile source).bounds =
      if (compile source).size = 1 then Box.unit
      else (Extremes.empty.insertAll (compile source).places).box := by
  have hsize : (compile source).size =
      (ToolPoint.start :: (stepsOf source).flatMap (·.path)).length := by
    rw [size, ← Array.length_toList, toList_toolpath_compile]
  unfold places
  rw [hsize, targets_compile, toList_toolpath_compile, Extremes.insertAll_append,
    compile_eq_ofSteps]
  rfl

theorem bounds_of_moves (h : (compile source).size ≠ 1) :
    (compile source).bounds = (Extremes.empty.insertAll (compile source).places).box := by
  rw [bounds_eq, if_neg h]

/-- The box of a program that moves fits its places. -/
theorem fits_of_moves (h : (compile source).size ≠ 1) :
    (compile source).bounds.Fits (compile source).places := by
  rw [bounds_of_moves h]
  exact Extremes.fits_insertAll ⟨_, origin_mem_places source, isFinite_origin⟩

end Compiled

/-- The box of every compiled text is the unit cube if the toolpath has no point but the start, and
else it fits the places of the program and depends on nothing but the finite ones. -/
theorem compile_bounds (source : String) :
    if (compile source).size = 1 then
      (compile source).bounds = ⟨⟨0.0, 0.0, 0.0⟩, ⟨1.0, 1.0, 1.0⟩⟩
    else
      (compile source).bounds.Fits (compile source).places ∧
        ∀ ps : List Point,
          ps.filter Point.isFinite = (compile source).places.filter Point.isFinite →
            (compile source).bounds = (Extremes.empty.insertAll ps).box := by
  split
  · rename_i hstill
    exact (bounds_eq source).trans (if_pos hstill)
  · rename_i hmoves
    constructor
    · exact fits_of_moves hmoves
    · intro ps hsame
      rw [bounds_of_moves hmoves, ← Extremes.insertAll_filter, ← hsame, Extremes.insertAll_filter]

end Milling.Program
