import Milling.Proofs.Program.Bounds
/-!
Compiling a text that goes on.

A run over some lines and then others is a run over the first and then, from the machine that they
leave behind, over the others. So lines that are added at the end of a text never change what was
compiled before: commands and points are only added, and the box only grows (`Program.Extends`).
-/

namespace Milling

namespace Machine

/-! ### Runs in two parts -/

/-- The machine after some lines. -/
def after (m : Machine) (numbered : List (List Char × Nat)) : Machine :=
  (Run.lines ⟨#[], m⟩ numbered).machine

theorem steps_append (m : Machine) (first second : List (List Char × Nat)) :
    m.steps (first ++ second) = m.steps first ++ (m.after first).steps second := by
  -- A run collects the steps of its machine, so the run over both parts can be read in two ways.
  let r : Run := ⟨#[], m⟩
  have hwhole := r.toList_steps_lines (first ++ second)
  have hfirst := r.toList_steps_lines first
  have hsecond := (r.lines first).toList_steps_lines second
  have hsplit : r.lines (first ++ second) = (r.lines first).lines second := List.foldl_append
  rw [hsplit, hsecond, hfirst] at hwhole
  simpa [r, after] using hwhole.symm

end Machine

namespace Program

/-- A program goes on where another ends: commands and points are only added, and the box of a
program that moves only grows. -/
structure Extends (p q : Program) : Prop where
  commands : p.commands.toList <+: q.commands.toList
  toolpath : p.toolpath.toList <+: q.toolpath.toList
  bounds : 1 < p.size → p.bounds.Within q.bounds

section Append

variable (a b : String)

/-- The lines of the first text come first and keep their numbers. -/
theorem numberedLines_append :
    numberedLines (a ++ "\n" ++ b) =
      numberedLines a ++
        (b.toList.splitOn '\n').zipIdx (a.toList.splitOn '\n').length := by
  unfold numberedLines
  have hlist : (a ++ "\n" ++ b).toList = a.toList ++ '\n' :: b.toList := by simp
  rw [hlist, List.splitOn_append_cons_self, List.zipIdx_append, Nat.zero_add]

/-- The lines of a longer text are carried out by the machine that the first lines leave. -/
theorem stepsOf_append :
    stepsOf (a ++ "\n" ++ b) =
      stepsOf a ++ (Machine.initial.after (numberedLines a)).steps
        ((b.toList.splitOn '\n').zipIdx (a.toList.splitOn '\n').length) := by
  unfold stepsOf
  rw [numberedLines_append, Machine.steps_append]

/-- A longer text has the commands of its start first. -/
theorem commands_append :
    (compile a).commands.toList <+: (compile (a ++ "\n" ++ b)).commands.toList := by
  rw [toList_commands_compile, toList_commands_compile, stepsOf_append, List.map_append]
  exact List.prefix_append _ _

theorem toolpath_append :
    (compile a).toolpath.toList <+: (compile (a ++ "\n" ++ b)).toolpath.toList := by
  rw [toList_toolpath_compile, toList_toolpath_compile, stepsOf_append, List.flatMap_append,
    ← List.cons_append]
  exact List.prefix_append _ _

theorem targets_append :
    (compile a).targets <+: (compile (a ++ "\n" ++ b)).targets := by
  rw [targets_compile, targets_compile, stepsOf_append, List.filterMap_append]
  exact List.prefix_append _ _

/-- A longer text goes to all places of its start. -/
theorem places_subset : (compile a).places ⊆ (compile (a ++ "\n" ++ b)).places := by
  intro p hp
  rcases List.mem_append.mp hp with hpath | htarget
  · exact List.mem_append_left _ (((toolpath_append a b).map (·.position)).subset hpath)
  · exact List.mem_append_right _ ((targets_append a b).subset htarget)

end Append

/-- Compiling a text with further lines extends what the text alone compiles to. -/
theorem compile_append (a b : String) : (compile a).Extends (compile (a ++ "\n" ++ b)) where
  commands := commands_append a b
  toolpath := toolpath_append a b
  bounds hmoves := by
    have hlength := (toolpath_append a b).length_le
    rw [Array.length_toList, Array.length_toList] at hlength
    have hmoves' : 1 < (compile (a ++ "\n" ++ b)).size := hmoves.trans_le hlength
    exact (fits_of_moves hmoves.ne').within (fits_of_moves hmoves'.ne') (places_subset a b)

end Program

end Milling
