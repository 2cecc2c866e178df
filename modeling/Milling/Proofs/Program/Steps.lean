import Milling.Program.Compile
/-!
A compilation as a list of steps.

`Machine.steps` is the run of a machine over numbered lines without the array that collects it, and
`compile_eq_ofSteps` says that compiling is that run from the initial machine. What one step does
is told by its command alone: `step_motion`, `step_path` and `step_target` never mention the block
that was read, and `agrees_step` says how the machine moves on.
-/

namespace Milling

/-! ### Fields of commands -/

/-- The fields of a block; a block with nothing but comments fills none. -/
def Block.fieldsOrEmpty (b : Block) : Block.Fields :=
  b.fields.getD ⟨none, none, none, none, none, none, none, none⟩

namespace Command

def fields (c : Command) : Block.Fields :=
  ⟨c.g, c.x, c.y, c.z, c.feed, c.i, c.j, c.k⟩

def code? (c : Command) : Option Motion :=
  c.g.bind Motion.ofCode?

@[simp] theorem hasAxis_ofFields (line : Nat) (text : String) (comment : Option String)
    (motion : Motion) (w : Block.Fields) :
    (ofFields line text comment motion w).hasAxis = w.hasAxis := rfl

end Command

namespace Block

theorem read_eq_none_iff {s : List Char} : read s = none ↔ Text.trim s = [] := by
  unfold read
  by_cases h : Text.trim s = []
  · simp [h]
  · have hempty : (Text.trim s).isEmpty = false := by simpa using h
    simp [h, hempty]

theorem text_of_read {s : List Char} {b : Block} (h : read s = some b) :
    b.text = String.ofList (Text.trim s) := by
  unfold read at h
  dsimp only at h
  split at h
  · cases h
  · cases h
    rfl

end Block

namespace Machine

/-! ### The run of a machine -/

/-- The steps that a machine takes over numbered lines; a blank line is no step. -/
def steps (m : Machine) : List (List Char × Nat) → List Step
  | [] => []
  | (text, line) :: rest =>
    match Block.read text with
    | none => m.steps rest
    | some b => (m.step line b).1 :: (m.step line b).2.steps rest

theorem steps_cons_blank {m : Machine} {text : List Char} {line : Nat}
    {rest : List (List Char × Nat)} (h : Block.read text = none) :
    m.steps ((text, line) :: rest) = m.steps rest := by
  simp [steps, h]

theorem steps_cons_block {m : Machine} {text : List Char} {line : Nat}
    {rest : List (List Char × Nat)} {b : Block} (h : Block.read text = some b) :
    m.steps ((text, line) :: rest) = (m.step line b).1 :: (m.step line b).2.steps rest := by
  simp [steps, h]

/-- A change of texts and numbers that every block and step follows is followed by the run. -/
theorem steps_map {text' : List Char → List Char} {number' : Nat → Nat} {block' : Block → Block}
    {step' : Step → Step} (hread : ∀ text, Block.read (text' text) = (Block.read text).map block')
    (hstep : ∀ (m : Machine) line b,
      m.step (number' line) (block' b) = (step' (m.step line b).1, (m.step line b).2))
    (m : Machine) (numbered : List (List Char × Nat)) :
    m.steps (numbered.map (Prod.map text' number')) = (m.steps numbered).map step' := by
  induction numbered generalizing m with
  | nil => rfl
  | cons head rest ih =>
    obtain ⟨text, line⟩ := head
    have hchanged := hread text
    rw [List.map_cons, Prod.map_apply]
    cases hblock : Block.read text with
    | none =>
      rw [hblock] at hchanged
      rw [steps_cons_blank hchanged, steps_cons_blank hblock, ih]
    | some b =>
      rw [hblock] at hchanged
      rw [steps_cons_block hchanged, steps_cons_block hblock, hstep, ih, List.map_cons]

end Machine

/-- A run in progress adds the steps of its machine to those it has. -/
theorem Run.toList_steps_lines (r : Run) (numbered : List (List Char × Nat)) :
    (r.lines numbered).steps.toList = r.steps.toList ++ r.machine.steps numbered := by
  induction numbered generalizing r with
  | nil => simp [Run.lines, Machine.steps]
  | cons head rest ih =>
    obtain ⟨text, line⟩ := head
    have hlines : r.lines ((text, line) :: rest) = (r.line (text, line)).lines rest := rfl
    rw [hlines, ih]
    cases hread : Block.read text with
    | none => simp [Run.line, hread, Machine.steps_cons_blank]
    | some b => simp [Run.line, hread, Machine.steps_cons_block]

/-- The kernel is slow at taking a long text apart; a list of characters spares it that. -/
theorem Program.numberedLines_ofList (s : List Char) :
    numberedLines (String.ofList s) = (s.splitOn '\n').zipIdx := by
  rw [numberedLines, String.toList_ofList]

/-- Compilation builds a program of the steps that the machine takes over the lines. -/
theorem Program.compile_eq_ofSteps (source : String) :
    Program.compile source = Program.ofSteps (Machine.initial.steps (numberedLines source)) := by
  simp [Program.compile, Run.toList_steps_lines, Run.initial]

namespace Machine

/-! ### One step, told by its command -/

def motionOf (m : Machine) (c : Command) : Motion :=
  match c.code? with
  | some motion => motion
  | none => if c.hasAxis then m.mode else .other

def targetOf (m : Machine) (c : Command) : Point :=
  ⟨c.x.getD m.target.x, c.y.getD m.target.y, c.z.getD m.target.z⟩

section OneStep

variable (m : Machine) (line : Nat) (b : Block)

/-- All that a step can be: that of a remark, of a block that stays, or of a block that moves. -/
theorem step_cases :
    (b.fields = none ∧ m.step line b = (⟨.ofComment line b.text b.comment, [], none⟩, m)) ∨
    (∃ w, b.fields = some w ∧ w.hasAxis = false ∧ m.step line b =
      (⟨.ofFields line b.text b.comment (m.motion w) w, [], none⟩,
        { m with mode := m.nextMode w })) ∨
    (∃ w, b.fields = some w ∧ w.hasAxis = true ∧ m.step line b =
      (⟨.ofFields line b.text b.comment (m.motion w) w, m.path line w, some (m.nextTarget w)⟩,
        ⟨m.nextMode w, m.nextTarget w,
          ((m.path line w).getLast?.map (·.position)).getD m.tool⟩)) := by
  unfold step
  cases hfields : b.fields with
  | none => exact .inl ⟨rfl, rfl⟩
  | some w =>
    refine .inr ?_
    cases haxis : w.hasAxis with
    | false => exact .inl ⟨w, rfl, haxis, by simp [haxis]⟩
    | true =>
      refine .inr ⟨w, rfl, haxis, ?_⟩
      simp only [haxis, if_true]
      cases (m.path line w).getLast? <;> rfl

@[simp] theorem step_line : (m.step line b).1.command.line = line := by
  rcases m.step_cases line b with ⟨-, h⟩ | ⟨w, -, -, h⟩ | ⟨w, -, -, h⟩ <;> rw [h] <;> rfl

@[simp] theorem step_text : (m.step line b).1.command.text = b.text := by
  rcases m.step_cases line b with ⟨-, h⟩ | ⟨w, -, -, h⟩ | ⟨w, -, -, h⟩ <;> rw [h] <;> rfl

@[simp] theorem step_comment : (m.step line b).1.command.comment = b.comment := by
  rcases m.step_cases line b with ⟨-, h⟩ | ⟨w, -, -, h⟩ | ⟨w, -, -, h⟩ <;> rw [h] <;> rfl

@[simp] theorem step_fields : (m.step line b).1.command.fields = b.fieldsOrEmpty := by
  unfold Block.fieldsOrEmpty
  rcases m.step_cases line b with ⟨hfields, h⟩ | ⟨w, hfields, -, h⟩ | ⟨w, hfields, -, h⟩ <;>
    rw [h, hfields] <;> rfl

theorem motionOf_ofFields (w : Block.Fields) (text : String) (comment : Option String)
    (motion : Motion) :
    m.motionOf (Command.ofFields line text comment motion w) = m.motion w := by
  unfold motionOf Machine.motion
  have hcode : (Command.ofFields line text comment motion w).code? = w.g.bind Motion.ofCode? := rfl
  rw [hcode]
  cases w.g.bind Motion.ofCode? <;> rfl

/-- A block gets the motion of its code, or the one that is on. -/
theorem step_motion :
    (m.step line b).1.command.motion = m.motionOf (m.step line b).1.command := by
  rcases m.step_cases line b with ⟨-, h⟩ | ⟨w, -, -, h⟩ | ⟨w, -, -, h⟩ <;> rw [h]
  · rfl
  · exact (motionOf_ofFields m line w b.text b.comment (m.motion w)).symm
  · exact (motionOf_ofFields m line w b.text b.comment (m.motion w)).symm

/-- The points that a command adds when the tool stands at a position and the command asks for a
target. -/
def group (tool target : Point) (c : Command) : List ToolPoint :=
  if c.hasAxis then
    if c.motion.isArc && c.hasOffset then
      (Arc.points tool target (c.i.getD 0.0) (c.j.getD 0.0) (c.motion == .arcClockwise)).map
        fun p => ⟨p, .cutting, c.line⟩
    else [⟨target, .ofMotion c.motion, c.line⟩]
  else []

theorem step_path :
    (m.step line b).1.path =
      group m.tool (m.targetOf (m.step line b).1.command) (m.step line b).1.command := by
  rcases m.step_cases line b with ⟨-, h⟩ | ⟨w, -, haxis, h⟩ | ⟨w, -, haxis, h⟩ <;> rw [h]
  · rfl
  · rw [group, Command.hasAxis_ofFields, haxis]
    rfl
  · rw [group, Command.hasAxis_ofFields, haxis]
    rfl

theorem step_target :
    (m.step line b).1.target =
      if (m.step line b).1.command.hasAxis then some (m.targetOf (m.step line b).1.command)
      else none := by
  rcases m.step_cases line b with ⟨-, h⟩ | ⟨w, -, haxis, h⟩ | ⟨w, -, haxis, h⟩ <;> rw [h]
  · rfl
  · rw [Command.hasAxis_ofFields, haxis]
    rfl
  · rw [Command.hasAxis_ofFields, haxis]
    rfl

theorem step_mode :
    (m.step line b).2.mode = (m.step line b).1.command.code?.getD m.mode := by
  rcases m.step_cases line b with ⟨-, h⟩ | ⟨w, -, -, h⟩ | ⟨w, -, -, h⟩ <;> rw [h] <;> rfl

/-- A command without coordinates leaves the commanded position as it is, since `targetOf` only
replaces the axes that are named. -/
theorem step_nextTarget :
    (m.step line b).2.target = m.targetOf (m.step line b).1.command := by
  rcases m.step_cases line b with ⟨-, h⟩ | ⟨w, -, haxis, h⟩ | ⟨w, -, -, h⟩ <;> rw [h]
  · rfl
  · have hnone : w.x = none ∧ w.y = none ∧ w.z = none := by
      simpa [Block.Fields.hasAxis, and_assoc] using haxis
    simp [targetOf, Command.ofFields, hnone]
  · rfl

theorem step_tool :
    (m.step line b).2.tool = (((m.step line b).1.path.getLast?).map (·.position)).getD m.tool := by
  rcases m.step_cases line b with ⟨-, h⟩ | ⟨w, -, -, h⟩ | ⟨w, -, -, h⟩ <;> rw [h] <;> rfl

end OneStep

/-! ### The commands of a run

They are read off the lines: no state of the machine decides which there are. -/

/-- What commands tell besides their motion is what their lines hold. -/
theorem map_steps_command (m : Machine) (numbered : List (List Char × Nat)) :
    (m.steps numbered).map (fun s =>
        (s.command.line, s.command.text, s.command.comment, s.command.fields)) =
      numbered.filterMap fun l =>
        (Block.read l.1).map fun b => (l.2, b.text, b.comment, b.fieldsOrEmpty) := by
  induction numbered generalizing m with
  | nil => rfl
  | cons head rest ih =>
    obtain ⟨text, line⟩ := head
    cases hread : Block.read text with
    | none => simp [steps_cons_blank hread, hread, ih]
    | some b => simp [steps_cons_block hread, hread, ih]

/-- The lines of the steps are some of the lines of the text, in their order. -/
theorem map_steps_line_sublist (m : Machine) (numbered : List (List Char × Nat)) :
    ((m.steps numbered).map (·.command.line)).Sublist (numbered.map (·.2)) := by
  induction numbered generalizing m with
  | nil => exact List.Sublist.refl _
  | cons head rest ih =>
    obtain ⟨text, line⟩ := head
    cases hread : Block.read text with
    | none =>
      rw [steps_cons_blank hread]
      exact (ih m).trans (List.sublist_cons_self _ _)
    | some b =>
      rw [steps_cons_block hread]
      simpa using (ih _).cons_cons line

end Machine

namespace Program

theorem numberedLines_increasing (source : String) :
    ((numberedLines source).map (·.2)).Pairwise (· < ·) := by
  have hrange : (numberedLines source).map (·.2) =
      List.range' 0 (source.toList.splitOn '\n').length := by
    simp [numberedLines, List.zipIdx_map_snd]
  rw [hrange]
  exact List.pairwise_lt_range'

def stepsOf (source : String) : List Step :=
  Machine.initial.steps (numberedLines source)

theorem toList_commands_compile (source : String) :
    (compile source).commands.toList = (stepsOf source).map (·.command) := by
  simp [compile_eq_ofSteps, ofSteps, stepsOf]

/-- The toolpath starts at the start and goes through the points of the steps. -/
theorem toList_toolpath_compile (source : String) :
    (compile source).toolpath.toList = .start :: (stepsOf source).flatMap (·.path) := by
  simp [compile_eq_ofSteps, ofSteps, stepsOf]

/-- The start is always there. -/
theorem size_compile_pos (source : String) : 0 < (compile source).size := by
  rw [size, ← Array.length_toList, toList_toolpath_compile]
  exact Nat.succ_pos _

/-- The commands are in ascending order of their lines. -/
theorem lines_increasing (source : String) :
    ((compile source).commands.toList.map (·.line)).Pairwise (· < ·) := by
  rw [toList_commands_compile, List.map_map]
  exact (numberedLines_increasing source).sublist (Machine.map_steps_line_sublist _ _)

/-- The commands of a compiled text are its blocks with the numbers of their lines. -/
theorem commands_compile (source : String) :
    (compile source).commands.toList.map (fun c => (c.line, c.text, c.comment, c.fields)) =
      (numberedLines source).filterMap fun l =>
        (Block.read l.1).map fun b => (l.2, b.text, b.comment, b.fieldsOrEmpty) := by
  rw [toList_commands_compile, List.map_map]
  exact Machine.map_steps_command _ _

end Program

end Milling
