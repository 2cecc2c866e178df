import Milling.Proofs.Program.Lookup
import Milling.Proofs.Program.Remark
import Milling.Scene.Depth
import Milling.Scene.Status
import Milling.Totals
/-!
The geometry of a program is told by the motion of its commands.

`Machine.trace` goes through a list of commands with two positions and no mode, and reads nothing of
a command but its outline: line, motion, coordinates and offsets of the centre. Every run leaves the
trace of its commands (`Machine.map_steps_trace`), so programs with the same outlines have the same
points, box, segments and distances, whatever codes and feed rates led there
(`Program.geometry_of_outline`).
-/

namespace Milling

def Command.outline (c : Command) : Command :=
  { c with text := "", comment := none, g := none, feed := none, k := none }

/-- The position that is commanded after a command, from the position before it. -/
def Command.targetFrom (c : Command) (p : Point) : Point :=
  ⟨c.x.getD p.x, c.y.getD p.y, c.z.getD p.z⟩

namespace Machine

/-! ### The trace of a command list -/

/-- The points that each command adds and the position that it asks for, from the position of the
tool and the commanded position. -/
def trace (tool target : Point) : List Command → List (List ToolPoint × Option Point)
  | [] => []
  | c :: rest =>
    let next := c.targetFrom target
    let path := group tool next c
    (path, if c.hasAxis then some next else none) ::
      trace ((path.getLast?.map (·.position)).getD tool) next rest

/-- A run leaves the trace of its commands. The induction goes along the lines, and the machine that
meets a line is told by its two positions alone. -/
theorem map_steps_trace (m : Machine) (numbered : List (List Char × Nat)) :
    (m.steps numbered).map (fun s => (s.path, s.target)) =
      trace m.tool m.target ((m.steps numbered).map (·.command)) := by
  induction numbered generalizing m with
  | nil => rfl
  | cons head rest ih =>
    obtain ⟨text, line⟩ := head
    cases hread : Block.read text with
    | none => rw [steps_cons_blank hread, ih]
    | some b =>
      have htarget : m.targetOf (m.step line b).1.command =
          (m.step line b).1.command.targetFrom m.target := rfl
      rw [steps_cons_block hread, List.map_cons, List.map_cons, ih, trace, step_tool,
        step_nextTarget, step_target, step_path, htarget]

/-- No part of a command but its outline is traced. -/
theorem trace_outline (tool target : Point) (cs : List Command) :
    trace tool target (cs.map Command.outline) = trace tool target cs := by
  induction cs generalizing tool target with
  | nil => rfl
  | cons c rest ih =>
    have hgroup : group tool (c.outline.targetFrom target) c.outline =
        group tool (c.targetFrom target) c := rfl
    have htarget : c.outline.targetFrom target = c.targetFrom target := rfl
    have haxis : c.outline.hasAxis = c.hasAxis := rfl
    rw [List.map_cons, trace, trace, hgroup, htarget, haxis, ih]

end Machine

/-! ### Totals without the time -/

namespace Totals

/-- The totals without the time that the moves take. -/
def untimed (t : Totals) : Totals :=
  { t with seconds := 0.0 }

def Leg.outline (l : Leg) : Leg :=
  { l with command := l.command.map Command.outline }

theorem untimed_add (t : Totals) (l : Leg) :
    (t.add l).untimed = (t.untimed.add l.outline).untimed := by
  obtain ⟨distance, kind, command⟩ := l
  cases kind <;> cases command <;> rfl

/-- Legs with the same outlines add up to the same totals, but for the time. -/
theorem untimed_foldl_add {t u : Totals} (h : t.untimed = u.untimed) {ls ks : List Leg}
    (hlegs : ls.map Leg.outline = ks.map Leg.outline) :
    (ls.foldl add t).untimed = (ks.foldl add u).untimed := by
  induction ls generalizing t u ks with
  | nil =>
    obtain rfl := List.map_eq_nil_iff.mp hlegs.symm
    exact h
  | cons l ls ih =>
    obtain ⟨k, ks, rfl, hleg, hrest⟩ := List.map_eq_cons_iff.mp hlegs.symm
    rw [List.foldl_cons, List.foldl_cons]
    refine ih ?_ hrest.symm
    rw [untimed_add t l, untimed_add u k, h, hleg]

/-- Minutes become seconds at the end, which is of no account without the time. -/
theorem untimed_ofProgram (p : Program) :
    (ofProgram p).untimed = ((legs p).foldl add zero).untimed := rfl

end Totals

namespace Program

/-- Two programs look alike: they differ in their commands and in the time they take at most. -/
structure SameGeometry (p q : Program) : Prop where
  toolpath : q.toolpath = p.toolpath
  bounds : q.bounds = p.bounds
  visible : ∀ w : DepthWindow, w.visible q = w.visible p
  progress : ∀ current, Progress.ofProgram q current = Progress.ofProgram p current
  totals : (Totals.ofProgram q).untimed = (Totals.ofProgram p).untimed

section Outline

variable {source source' : String}

/-- The points and the targets of a text are the trace of its commands. -/
theorem map_stepsOf_trace (source : String) :
    (stepsOf source).map (fun s => (s.path, s.target)) =
      Machine.trace .origin .origin (compile source).commands.toList := by
  rw [toList_commands_compile]
  exact Machine.map_steps_trace _ _

variable (h : (compile source').commands.toList.map Command.outline =
  (compile source).commands.toList.map Command.outline)

include h

/-- Commands with the same outlines add the same points and ask for the same targets. -/
theorem map_stepsOf_of_outline :
    (stepsOf source').map (fun s => (s.path, s.target)) =
      (stepsOf source).map (fun s => (s.path, s.target)) := by
  rw [map_stepsOf_trace, map_stepsOf_trace, ← Machine.trace_outline, h, Machine.trace_outline]

/-- Commands with the same outlines have the same toolpath in the same box. -/
theorem toolpath_of_outline :
    (compile source').toolpath = (compile source).toolpath ∧
      (compile source').bounds = (compile source).bounds := by
  have hsteps := map_stepsOf_of_outline h
  apply compile_congr
  · simpa [List.flatMap_map] using congrArg (List.flatMap Prod.fst) hsteps
  · simpa [List.filterMap_map, Function.comp_def] using congrArg (List.filterMap Prod.snd) hsteps

theorem exists_commandAt?_of_outline {line : Nat} {c : Command}
    (hc : (compile source).commandAt? line = some c) :
    ∃ d, (compile source').commandAt? line = some d ∧ d.outline = c.outline := by
  obtain ⟨hmem, hline⟩ := (commandAt?_eq_some_iff (lines_increasing source)).mp hc
  have hmem' : c.outline ∈ (compile source').commands.toList.map Command.outline := by
    rw [h]
    exact List.mem_map_of_mem (Array.mem_toList_iff.mpr hmem)
  obtain ⟨d, hd, heq⟩ := List.mem_map.mp hmem'
  have hsame : d.outline.line = c.outline.line := congrArg Command.line heq
  exact ⟨d, (commandAt?_eq_some_iff (lines_increasing source')).mpr
    ⟨Array.mem_toList_iff.mp hd, hsame.trans hline⟩, heq⟩

/-- On each line the two programs have commands with one outline, or none. -/
theorem commandAt?_of_outline (line : Nat) :
    ((compile source').commandAt? line).map Command.outline =
      ((compile source).commandAt? line).map Command.outline := by
  cases hc : (compile source).commandAt? line with
  | some c =>
    obtain ⟨d, hd, heq⟩ := exists_commandAt?_of_outline h hc
    rw [hd, Option.map_some, heq, Option.map_some]
  | none =>
    cases hd : (compile source').commandAt? line with
    | none => rfl
    | some d =>
      obtain ⟨c, hc', -⟩ := exists_commandAt?_of_outline h.symm hd
      rw [hc] at hc'
      cases hc'

theorem legs_of_outline :
    (Totals.legs (compile source')).map Totals.Leg.outline =
      (Totals.legs (compile source)).map Totals.Leg.outline := by
  have hsegments : (compile source').segments = (compile source).segments := by
    rw [segments, segments, (toolpath_of_outline h).1]
  rw [Totals.legs, Totals.legs, hsegments, List.map_map, List.map_map]
  refine List.map_congr_left fun s _ => ?_
  simp only [Function.comp_apply, Totals.Leg.outline, commandAt?_of_outline h]

end Outline

/-- Programs whose commands have the same outlines look alike. The numbers of an outline are the
same doubles, with the sign of zero, which tells the directions apart in which an arc can turn. -/
theorem geometry_of_outline (source source' : String)
    (h : (compile source').commands.toList.map Command.outline =
      (compile source).commands.toList.map Command.outline) :
    SameGeometry (compile source) (compile source') where
  toolpath := (toolpath_of_outline h).1
  bounds := (toolpath_of_outline h).2
  visible w := by
    rw [DepthWindow.visible, DepthWindow.visible, segments, segments, (toolpath_of_outline h).1]
  progress current := by
    unfold Progress.ofProgram Progress.indexed
    rw [(toolpath_of_outline h).1]
  totals := by
    rw [Totals.untimed_ofProgram, Totals.untimed_ofProgram]
    exact Totals.untimed_foldl_add rfl (legs_of_outline h)

/-- A mode that is set with other codes, a comment and other feed rates. -/
theorem geometry_of_outline_recoded :
    let source := "G1 X5 Y1 F100\nX7\n(turn)\nG2 X10 I1.5 K2"
    let source' := "G01 X5 Y1\nG1 X7 F80 (on)\n;\ng2 x10 i1.5 F3"
    (compile source').commands.toList.map Command.outline =
        (compile source).commands.toList.map Command.outline ∧
      SameGeometry (compile source) (compile source') := by
  intro source source'
  have h : (compile source').commands.toList.map Command.outline =
      (compile source).commands.toList.map Command.outline := by decide +kernel
  exact ⟨h, geometry_of_outline source source' h⟩

end Program

end Milling
