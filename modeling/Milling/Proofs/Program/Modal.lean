import Mathlib.Data.List.Induction
import Milling.Proofs.Program.Steps
/-!
Modal semantics without a running state.

The compiler carries a mode, a commanded position and the place of the tool from block to block.
Here the same program is read off its command list: the mode of a command is what the nearest
earlier command with a motion code selects (`motionAt`), its target is on each axis the nearest
word for that axis (`targetAt`), and the toolpath is put together from one group of points for each
command (`Traced`). `compile_modal` says that both readings agree for every text.
-/

namespace Milling

/-- What the last command that gives a value gives. -/
def latest? {α : Type} (f : Command → Option α) (cs : List Command) : Option α :=
  cs.reverse.findSome? f

@[simp] theorem latest?_nil {α : Type} (f : Command → Option α) : latest? f [] = none := rfl

@[simp] theorem latest?_concat {α : Type} (f : Command → Option α) (cs : List Command)
    (c : Command) : latest? f (cs ++ [c]) = (f c).or (latest? f cs) := by
  unfold latest?
  rw [List.reverse_concat, List.findSome?_cons]
  cases f c <;> rfl

/-- The position that the last words for the three axes command; an axis that no command names is
at zero. -/
def latestTarget (cs : List Command) : Point :=
  ⟨(latest? (·.x) cs).getD 0.0, (latest? (·.y) cs).getD 0.0, (latest? (·.z) cs).getD 0.0⟩

namespace Program

/-! ### The reading of a command list -/

def before (p : Program) (line : Nat) : List Command :=
  p.commands.toList.filter (·.line < line)

def upTo (p : Program) (line : Nat) : List Command :=
  p.commands.toList.filter (·.line ≤ line)

/-- The motion of a command: that of its own code, else for a command with a coordinate that of the
nearest earlier command with a motion code, rapid if there is none. -/
def motionAt (p : Program) (c : Command) : Motion :=
  match c.code? with
  | some motion => motion
  | none => if c.hasAxis then (latest? Command.code? (p.before c.line)).getD .rapid else .other

/-- The position that is commanded at a line. -/
def targetAt (p : Program) (line : Nat) : Point :=
  latestTarget (p.upTo line)

/-- The toolpath of some of the first commands: the starting point, then one group for each
command. A group may depend on the point before it, where an arc starts. -/
inductive Traced (p : Program) : List Command → List ToolPoint → Prop where
  | start : Traced p [] [.start]
  | command {cs : List Command} {path : List ToolPoint} {last : ToolPoint} (c : Command) :
      Traced p cs path → path.getLast? = some last →
      Traced p (cs ++ [c]) (path ++ Machine.group last.position (p.targetAt c.line) c)

end Program

/-! ### The machine agrees with the history -/

namespace Machine

/-- The machine holds what the steps so far tell. -/
structure Agrees (m : Machine) (past : List Step) : Prop where
  mode : m.mode = (latest? Command.code? (past.map (·.command))).getD .rapid
  target : m.target = latestTarget (past.map (·.command))
  tool : ((ToolPoint.start :: past.flatMap (·.path)).getLast?).map (·.position) = some m.tool

theorem agrees_initial : initial.Agrees [] :=
  ⟨rfl, rfl, rfl⟩

/-- The commanded position goes by the latest words for the axes. -/
theorem targetOf_eq_latestTarget {m : Machine} {past : List Step} (h : m.Agrees past)
    (c : Command) : m.targetOf c = latestTarget (past.map (·.command) ++ [c]) := by
  unfold targetOf latestTarget
  rw [h.target]
  simp only [latest?_concat, latestTarget]
  cases c.x <;> cases c.y <;> cases c.z <;> rfl

/-- After a block the machine agrees with one step more. -/
theorem agrees_step {m : Machine} {past : List Step} (h : m.Agrees past) (line : Nat)
    (b : Block) : (m.step line b).2.Agrees (past ++ [(m.step line b).1]) := by
  constructor
  · rw [step_mode, h.mode, List.map_append, List.map_singleton, latest?_concat]
    cases (m.step line b).1.command.code? <;> rfl
  · rw [step_nextTarget, targetOf_eq_latestTarget h, List.map_append, List.map_singleton]
  · rw [List.flatMap_append, List.flatMap_singleton, ← List.cons_append, List.getLast?_append,
      step_tool]
    cases hlast : (m.step line b).1.path.getLast? with
    | none => simpa using h.tool
    | some last => rfl

/-- Every step of a run is a step of a machine that agrees with all the steps before it. -/
theorem steps_split {m : Machine} {past : List Step} (h : m.Agrees past)
    {numbered : List (List Char × Nat)} {pre post : List Step} {s : Step}
    (hsplit : m.steps numbered = pre ++ s :: post) :
    ∃ m' : Machine, m'.Agrees (past ++ pre) ∧ ∃ line b, (m'.step line b).1 = s := by
  induction numbered generalizing m past pre with
  | nil => simp [steps] at hsplit
  | cons head rest ih =>
    obtain ⟨text, line⟩ := head
    cases hread : Block.read text with
    | none =>
      rw [steps_cons_blank hread] at hsplit
      exact ih h hsplit
    | some b =>
      rw [steps_cons_block hread] at hsplit
      cases pre with
      | nil =>
        obtain ⟨hs, -⟩ := List.cons.inj hsplit
        exact ⟨m, by simpa using h, line, b, hs⟩
      | cons first pre =>
        obtain ⟨rfl, hrest⟩ := List.cons.inj hsplit
        obtain ⟨m', hagrees, hstep⟩ := ih (agrees_step h line b) hrest
        exact ⟨m', by simpa using hagrees, hstep⟩

end Machine

/-! ### Lines and positions in the list -/

section Split

variable {cs : List Command} {pre post : List Command} {c : Command}

theorem line_lt_of_split (hs : (cs.map (·.line)).Pairwise (· < ·)) (h : cs = pre ++ c :: post) :
    (∀ d ∈ pre, d.line < c.line) ∧ ∀ d ∈ post, c.line < d.line := by
  subst h
  rw [List.map_append, List.map_cons, List.pairwise_append, List.pairwise_cons] at hs
  constructor
  · intro d hd
    exact hs.2.2 _ (List.mem_map_of_mem hd) _ List.mem_cons_self
  · intro d hd
    exact hs.2.1.1 _ (List.mem_map_of_mem hd)

/-- With lines in strict order, the commands on earlier lines are those earlier in the list. -/
theorem filter_lt_of_split (hs : (cs.map (·.line)).Pairwise (· < ·)) (h : cs = pre ++ c :: post) :
    cs.filter (·.line < c.line) = pre := by
  obtain ⟨hpre, hpost⟩ := line_lt_of_split hs h
  have hleft : pre.filter (·.line < c.line) = pre :=
    List.filter_eq_self.mpr fun d hd => by simpa using hpre d hd
  have hright : post.filter (·.line < c.line) = [] :=
    List.filter_eq_nil_iff.mpr fun d hd => by simpa using Nat.le_of_lt (hpost d hd)
  rw [h, List.filter_append, List.filter_cons_of_neg (by simp), hleft, hright, List.append_nil]

/-- The commands up to a line are those up to the command on it. -/
theorem filter_le_of_split (hs : (cs.map (·.line)).Pairwise (· < ·)) (h : cs = pre ++ c :: post) :
    cs.filter (·.line ≤ c.line) = pre ++ [c] := by
  obtain ⟨hpre, hpost⟩ := line_lt_of_split hs h
  have hleft : pre.filter (·.line ≤ c.line) = pre :=
    List.filter_eq_self.mpr fun d hd => by simpa using Nat.le_of_lt (hpre d hd)
  have hright : post.filter (·.line ≤ c.line) = [] :=
    List.filter_eq_nil_iff.mpr fun d hd => by simpa using hpost d hd
  rw [h, List.filter_append, List.filter_cons_of_pos (by simp), hleft, hright]

end Split

namespace Program

/-! ### Compiled programs read as their command lists -/

section Compiled

variable {source : String} {pre post : List Step} {s : Step}

theorem commands_split (h : stepsOf source = pre ++ s :: post) :
    (compile source).commands.toList =
      pre.map (·.command) ++ s.command :: post.map (·.command) := by
  rw [toList_commands_compile, h, List.map_append, List.map_cons]

/-- The motion of a command goes by the codes up to it. -/
theorem motion_of_split (h : stepsOf source = pre ++ s :: post) :
    s.command.motion = (compile source).motionAt s.command := by
  obtain ⟨m, hagrees, line, b, rfl⟩ := Machine.steps_split Machine.agrees_initial h
  rw [Machine.step_motion]
  unfold Machine.motionOf motionAt before
  rw [filter_lt_of_split (lines_increasing source) (commands_split h), hagrees.mode]
  rfl

/-- The points of a command lead from the last point before it to the commanded position. -/
theorem path_of_split (h : stepsOf source = pre ++ s :: post) :
    ∃ last, (ToolPoint.start :: pre.flatMap (·.path)).getLast? = some last ∧
      s.path =
        Machine.group last.position ((compile source).targetAt s.command.line) s.command := by
  obtain ⟨m, hagrees, line, b, rfl⟩ := Machine.steps_split Machine.agrees_initial h
  obtain ⟨last, hlast, htool⟩ := Option.map_eq_some_iff.mp hagrees.tool
  refine ⟨last, hlast, ?_⟩
  rw [Machine.step_path, Machine.targetOf_eq_latestTarget hagrees]
  unfold targetAt upTo
  rw [filter_le_of_split (lines_increasing source) (commands_split h), htool]
  rfl

/-- The induction takes the steps from the left, so each group meets the path before it. -/
theorem traced_steps (h : stepsOf source = pre ++ post) :
    Traced (compile source) (pre.map (·.command)) (.start :: pre.flatMap (·.path)) := by
  induction pre using List.reverseRecOn generalizing post with
  | nil => exact .start
  | append_singleton pre s ih =>
    have hsplit : stepsOf source = pre ++ s :: post := by simpa using h
    obtain ⟨last, hlast, hpath⟩ := path_of_split hsplit
    have htraced := Traced.command s.command (ih hsplit) hlast
    rw [← hpath] at htraced
    simpa using htraced

end Compiled

/-- Compiling agrees with the reading of the command list: the commands are the blocks of the text
on strictly increasing lines, each has the motion that `motionAt` gives it, and the toolpath is
traced by them. -/
theorem compile_modal (source : String) :
    (compile source).commands.toList.map (fun c => (c.line, c.text, c.comment, c.fields)) =
        ((numberedLines source).filterMap fun l =>
          (Block.read l.1).map fun b => (l.2, b.text, b.comment, b.fieldsOrEmpty)) ∧
      ((compile source).commands.toList.map (·.line)).Pairwise (· < ·) ∧
      (∀ c ∈ (compile source).commands, c.motion = (compile source).motionAt c) ∧
      Traced (compile source) (compile source).commands.toList
        (compile source).toolpath.toList := by
  refine ⟨commands_compile source, lines_increasing source, ?_, ?_⟩
  · intro c hc
    rw [← Array.mem_toList_iff, toList_commands_compile] at hc
    obtain ⟨s, hs, rfl⟩ := List.mem_map.mp hc
    obtain ⟨pre, post, hsplit⟩ := List.append_of_mem hs
    exact motion_of_split hsplit
  · rw [toList_toolpath_compile, toList_commands_compile]
    exact traced_steps (List.append_nil _).symm

end Program

end Milling
