import Milling.Proofs.Program.Lookup
import Milling.Proofs.Program.Prefix
import Milling.Totals
/-!
Lines that move nothing.

Line numbers are labels: the machine hands them on and never reads them, so a run over renumbered
lines is the renumbered run (`Machine.steps_renumber`), and distances, times and counts do not
depend on the numbers as long as each point still finds its command (`Program.Renumbered`). A line
without coordinate and without motion code leaves the machine as it is, so that a program with such
a line is the program without it, renumbered (`compile_insert`).
-/

namespace Milling

/-! ### Other numbers for the same lines -/

def ToolPoint.renumber (f : Nat → Nat) (t : ToolPoint) : ToolPoint :=
  { t with line := f t.line }

def Command.renumber (f : Nat → Nat) (c : Command) : Command :=
  { c with line := f c.line }

def Step.renumber (f : Nat → Nat) (s : Step) : Step :=
  ⟨s.command.renumber f, s.path.map (·.renumber f), s.target⟩

def Totals.Leg.renumber (f : Nat → Nat) (l : Totals.Leg) : Totals.Leg :=
  { l with command := l.command.map (·.renumber f) }

theorem Timing.feedRate_renumber (f : Nat → Nat) (c : Option Command) (kind : MoveKind) :
    Timing.feedRate (c.map (·.renumber f)) kind = Timing.feedRate c kind := by
  cases c <;> rfl

/-- The totals ask for the feed rate and the motion of a command, never for its line. -/
theorem Totals.add_renumber (f : Nat → Nat) (t : Totals) (l : Totals.Leg) :
    t.add (l.renumber f) = t.add l := by
  obtain ⟨distance, kind, command⟩ := l
  cases kind <;> cases command <;> rfl

namespace Machine

theorem path_renumber (m : Machine) (f : Nat → Nat) (line : Nat) (w : Block.Fields) :
    m.path (f line) w = (m.path line w).map (·.renumber f) := by
  unfold path
  by_cases harc : (m.motion w).isArc && w.hasOffset
  · simp [harc, Function.comp_def, ToolPoint.renumber]
  · simp [harc, ToolPoint.renumber]

/-- A machine does the same on a line with another number. -/
theorem step_renumber (m : Machine) (f : Nat → Nat) (line : Nat) (b : Block) :
    m.step (f line) b = ((m.step line b).1.renumber f, (m.step line b).2) := by
  unfold step
  cases b.fields with
  | none => rfl
  | some w =>
    by_cases haxis : w.hasAxis
    · simp only [haxis, if_true, path_renumber, List.getLast?_map]
      cases (m.path line w).getLast? <;> rfl
    · simp only [haxis]
      rfl

/-- New numbers for the lines change nothing but the numbers. -/
theorem steps_renumber (m : Machine) (f : Nat → Nat) (numbered : List (List Char × Nat)) :
    m.steps (numbered.map (Prod.map id f)) = (m.steps numbered).map (·.renumber f) := by
  have hread : ∀ text, Block.read (id text) = (Block.read text).map id := fun text => by
    rw [Option.map_id, id, id]
  exact steps_map hread (fun m line b => m.step_renumber f line b) m numbered

end Machine

namespace Program

/-- One program is the other with new numbers for its lines: so are its points, and the command of
every renumbered line is found. -/
structure Renumbered (f : Nat → Nat) (p q : Program) : Prop where
  toolpath : q.toolpath.toList = p.toolpath.toList.map (·.renumber f)
  commandAt? : ∀ line, q.commandAt? (f line) = (p.commandAt? line).map (·.renumber f)

namespace Renumbered

variable {f : Nat → Nat} {p q : Program}

theorem point?_eq (h : Renumbered f p q) (index : Nat) :
    q.point? index = (p.point? index).map (·.renumber f) := by
  unfold point?
  rw [← Array.getElem?_toList, h.toolpath, List.getElem?_map, Array.getElem?_toList]

/-- New numbers do not change how long a segment takes. -/
theorem duration_eq (h : Renumbered f p q) (start finish : Nat) :
    Timing.duration q start finish = Timing.duration p start finish := by
  unfold Timing.duration
  rw [h.point?_eq start, h.point?_eq finish]
  cases p.point? start with
  | none => rfl
  | some a =>
    cases p.point? finish with
    | none => rfl
    | some b =>
      simp only [Option.map_some, ToolPoint.renumber, h.commandAt?, Timing.feedRate_renumber]

theorem commandOf?_eq (h : Renumbered f p q) (index : Nat) :
    q.commandOf? index = (p.commandOf? index).map (·.renumber f) := by
  unfold commandOf?
  rw [h.point?_eq index]
  cases p.point? index with
  | none => rfl
  | some t => exact h.commandAt? t.line

theorem segments_eq (h : Renumbered f p q) :
    q.segments = p.segments.map (Prod.map (·.renumber f) (·.renumber f)) := by
  unfold segments
  rw [h.toolpath, ← List.map_tail, List.zip_map]

theorem legs_eq (h : Renumbered f p q) :
    Totals.legs q = (Totals.legs p).map (·.renumber f) := by
  unfold Totals.legs
  rw [h.segments_eq, List.map_map, List.map_map]
  refine List.map_congr_left fun s _ => ?_
  simp only [Function.comp_apply, Prod.map, Totals.Leg.renumber, ToolPoint.renumber, h.commandAt?]

/-- New numbers do not change the totals. -/
theorem totals_eq (h : Renumbered f p q) : Totals.ofProgram q = Totals.ofProgram p := by
  unfold Totals.ofProgram
  rw [h.legs_eq, List.foldl_map]
  simp only [Totals.add_renumber]

end Renumbered

end Program

/-! ### A line that moves nothing -/

/-- A line gives no coordinate and no motion code: it is blank, holds only comments, or has other
words only. -/
def Block.Inert (text : List Char) : Prop :=
  ∀ w ∈ (Block.read text).bind (·.fields), w.hasAxis = false ∧ ∀ g ∈ w.g, 3 < g

instance (text : List Char) : Decidable (Block.Inert text) := by
  unfold Block.Inert; infer_instance

namespace Machine

variable {m : Machine} {text : List Char}

/-- An inert line leaves the machine as it is, and adds no point and no target. -/
theorem step_inert (h : Block.Inert text) {b : Block} (hread : Block.read text = some b)
    (line : Nat) :
    (m.step line b).2 = m ∧ (m.step line b).1.path = [] ∧ (m.step line b).1.target = none := by
  have hnone : ∀ w, b.fields = some w → w.hasAxis = false ∧ w.g.bind Motion.ofCode? = none := by
    intro w hfields
    obtain ⟨haxis, hcode⟩ := h w (by simp [hread, hfields])
    refine ⟨haxis, ?_⟩
    cases hg : w.g with
    | none => rfl
    | some g => exact Motion.ofCode?_of_lt (hcode g hg)
  rcases m.step_cases line b with ⟨-, hstep⟩ | ⟨w, hfields, -, hstep⟩ | ⟨w, hfields, haxis, -⟩
  · rw [hstep]
    exact ⟨rfl, rfl, rfl⟩
  · rw [hstep, nextMode, (hnone w hfields).2]
    exact ⟨rfl, rfl, rfl⟩
  · rw [(hnone w hfields).1] at haxis
    cases haxis

/-- What a line that moves nothing adds is at most its command. -/
theorem exists_idle (h : Block.Inert text) (m : Machine) (line : Nat) :
    ∃ idle : List Step,
      (∀ s ∈ idle, s.command.line = line ∧ s.path = [] ∧ s.target = none) ∧
        ∀ rest, m.steps ((text, line) :: rest) = idle ++ m.steps rest := by
  cases hread : Block.read text with
  | none => exact ⟨[], by simp, fun rest => steps_cons_blank hread⟩
  | some b =>
    obtain ⟨hmachine, hpath, htarget⟩ := step_inert (m := m) h hread line
    refine ⟨[(m.step line b).1], ?_, fun rest => ?_⟩
    · intro s hs
      obtain rfl := List.mem_singleton.mp hs
      exact ⟨step_line m line b, hpath, htarget⟩
    · rw [steps_cons_block hread, hmachine]
      rfl

end Machine

namespace Program

/-- The number of a line after another line was put in at `n`. -/
def makeRoom (n line : Nat) : Nat :=
  if n ≤ line then line + 1 else line

theorem makeRoom_of_le {n line : Nat} (h : n ≤ line) : makeRoom n line = line + 1 :=
  if_pos h

theorem makeRoom_of_lt {n line : Nat} (h : line < n) : makeRoom n line = line :=
  if_neg (Nat.not_le.mpr h)

theorem makeRoom_ne (n line : Nat) : makeRoom n line ≠ n := by
  unfold makeRoom
  split <;> omega

/-- Lines keep different numbers when room is made. -/
theorem makeRoom_injective (n : Nat) : Function.Injective (makeRoom n) := by
  intro line line' h
  unfold makeRoom at h
  split at h <;> split at h <;> omega

/-- A program is another one with a line at `n` that moves nothing: points from that line on have
the next number, and nothing else that is read off the program is different. -/
structure Inserted (n : Nat) (p q : Program) : Prop where
  toolpath : q.toolpath.toList = .start :: p.moves.map (·.renumber (makeRoom n))
  bounds : q.bounds = p.bounds
  totals : Totals.ofProgram q = Totals.ofProgram p
  duration : ∀ start finish, Timing.duration q start finish = Timing.duration p start finish
  commandOf? : ∀ index,
    q.commandOf? index = (p.commandOf? index).map (·.renumber (makeRoom n))

section Insert

variable {a l b : String}

theorem map_makeRoom_numberedLines (a : String) :
    (numberedLines a).map (Prod.map id (makeRoom (numberedLines a).length)) = numberedLines a := by
  refine (List.map_congr_left fun x hx => ?_).trans (List.map_id _)
  have hlt : x.2 < (numberedLines a).length := by
    simpa [numberedLines] using List.snd_lt_of_mem_zipIdx hx
  rw [Prod.map, makeRoom_of_lt hlt]
  rfl

theorem map_makeRoom_zipIdx (lines : List (List Char)) (n : Nat) :
    (lines.zipIdx n).map (Prod.map id (makeRoom n)) = lines.zipIdx (n + 1) := by
  rw [Nat.add_comm, ← List.map_snd_add_zipIdx_eq_zipIdx]
  refine List.map_congr_left fun x hx => ?_
  rw [Prod.map, makeRoom_of_le (List.le_snd_of_mem_zipIdx hx)]
  rfl

/-- The lines of the text with the line put in: those after it get their new numbers. -/
theorem numberedLines_insert (hline : '\n' ∉ l.toList) :
    ∃ later, numberedLines (a ++ "\n" ++ b) = numberedLines a ++ later ∧
      numberedLines (a ++ "\n" ++ l ++ "\n" ++ b) =
        numberedLines a ++ (l.toList, (numberedLines a).length) ::
          later.map (Prod.map id (makeRoom (numberedLines a).length)) := by
  have hlength : (numberedLines a).length = (a.toList.splitOn '\n').length := List.length_zipIdx
  have hsplit : (a ++ "\n" ++ l).toList.splitOn '\n' = a.toList.splitOn '\n' ++ [l.toList] := by
    have hlist : (a ++ "\n" ++ l).toList = a.toList ++ '\n' :: l.toList := by simp
    rw [hlist, List.splitOn_append_cons_self, List.splitOn_eq_singleton hline]
  refine ⟨_, numberedLines_append a b, ?_⟩
  rw [numberedLines_append, numberedLines_append, hsplit, hlength, map_makeRoom_zipIdx,
    List.splitOn_eq_singleton hline, List.append_assoc]
  simp

variable (hline : '\n' ∉ l.toList) (hinert : Block.Inert l.toList)
include hline hinert

/-- The steps are those of the text without the line in their new numbers, and between them what
the line adds. -/
theorem stepsOf_insert :
    ∃ pre idle post : List Step, stepsOf (a ++ "\n" ++ b) = pre ++ post ∧
      (∀ s ∈ idle, s.command.line = (numberedLines a).length ∧ s.path = [] ∧ s.target = none) ∧
      stepsOf (a ++ "\n" ++ l ++ "\n" ++ b) =
        pre.map (·.renumber (makeRoom (numberedLines a).length)) ++ idle ++
          post.map (·.renumber (makeRoom (numberedLines a).length)) := by
  obtain ⟨later, hwithout, hwith⟩ := numberedLines_insert (a := a) (b := b) hline
  let m := Machine.initial.after (numberedLines a)
  obtain ⟨idle, hidle, hsteps⟩ := Machine.exists_idle hinert m (numberedLines a).length
  refine ⟨stepsOf a, idle, m.steps later, ?_, hidle, ?_⟩
  · rw [stepsOf, hwithout, Machine.steps_append]
    rfl
  · have hbefore : (stepsOf a).map (·.renumber (makeRoom (numberedLines a).length)) =
        stepsOf a := by
      rw [stepsOf, ← Machine.steps_renumber, map_makeRoom_numberedLines]
    rw [stepsOf, hwith, Machine.steps_append, hsteps, Machine.steps_renumber, hbefore,
      List.append_assoc]
    rfl

theorem moves_insert :
    (compile (a ++ "\n" ++ l ++ "\n" ++ b)).moves =
      (compile (a ++ "\n" ++ b)).moves.map (·.renumber (makeRoom (numberedLines a).length)) := by
  obtain ⟨pre, idle, post, hwithout, hidle, hwith⟩ := stepsOf_insert (a := a) (b := b) hline hinert
  have hnone : idle.flatMap (·.path) = [] :=
    List.flatMap_eq_nil_iff.mpr fun s hs => (hidle s hs).2.1
  rw [moves_compile, moves_compile, hwithout, hwith]
  simp only [List.flatMap_append, hnone, List.append_nil, List.flatMap_map, List.map_append,
    List.map_flatMap]
  rfl

theorem targets_insert :
    (compile (a ++ "\n" ++ l ++ "\n" ++ b)).targets = (compile (a ++ "\n" ++ b)).targets := by
  obtain ⟨pre, idle, post, hwithout, hidle, hwith⟩ := stepsOf_insert (a := a) (b := b) hline hinert
  have hnone : idle.filterMap (·.target) = [] :=
    List.filterMap_eq_nil_iff.mpr fun s hs => (hidle s hs).2.2
  rw [targets_compile, targets_compile, hwithout, hwith]
  simp only [List.filterMap_append, hnone, List.append_nil, List.filterMap_map]
  rfl

/-- Besides the command of the new line, the commands are the earlier ones with their new
numbers. -/
theorem mem_commands_insert {c : Command} (hc : c.line ≠ (numberedLines a).length) :
    c ∈ (compile (a ++ "\n" ++ l ++ "\n" ++ b)).commands ↔
      ∃ d ∈ (compile (a ++ "\n" ++ b)).commands,
        d.renumber (makeRoom (numberedLines a).length) = c := by
  obtain ⟨pre, idle, post, hwithout, hidle, hwith⟩ := stepsOf_insert (a := a) (b := b) hline hinert
  have hother : ∀ s ∈ idle, s.command ≠ c := by
    rintro s hs rfl
    exact hc (hidle s hs).1
  simp only [← Array.mem_toList_iff, toList_commands_compile, hwithout, hwith, List.map_append,
    List.map_map, List.mem_append, List.mem_map, Function.comp_apply]
  constructor
  · rintro ((⟨s, hs, rfl⟩ | ⟨s, hs, rfl⟩) | ⟨s, hs, rfl⟩)
    · exact ⟨_, .inl ⟨s, hs, rfl⟩, rfl⟩
    · exact absurd rfl (hother s hs)
    · exact ⟨_, .inr ⟨s, hs, rfl⟩, rfl⟩
  · rintro ⟨d, ⟨s, hs, rfl⟩ | ⟨s, hs, rfl⟩, rfl⟩
    · exact .inl (.inl ⟨s, hs, rfl⟩)
    · exact .inr ⟨s, hs, rfl⟩

/-- The command of an earlier line is found under its new number. -/
theorem commandAt?_insert (line : Nat) :
    (compile (a ++ "\n" ++ l ++ "\n" ++ b)).commandAt? (makeRoom (numberedLines a).length line) =
      ((compile (a ++ "\n" ++ b)).commandAt? line).map
        (·.renumber (makeRoom (numberedLines a).length)) := by
  -- The number of the line that is put in is no line's new number, so its command is never found.
  refine Option.ext fun c => ?_
  rw [Option.map_eq_some_iff, commandAt?_eq_some_iff (lines_increasing _)]
  constructor
  · rintro ⟨hmem, hc⟩
    have hne : c.line ≠ (numberedLines a).length := hc ▸ makeRoom_ne _ _
    obtain ⟨d, hd, rfl⟩ := (mem_commands_insert hline hinert hne).mp hmem
    exact ⟨d, (commandAt?_eq_some_iff (lines_increasing _)).mpr
      ⟨hd, makeRoom_injective _ hc⟩, rfl⟩
  · rintro ⟨d, hd, rfl⟩
    obtain ⟨hmem, rfl⟩ := (commandAt?_eq_some_iff (lines_increasing _)).mp hd
    exact ⟨(mem_commands_insert hline hinert (makeRoom_ne _ _)).mpr ⟨d, hmem, rfl⟩, rfl⟩

/-- The toolpath is the earlier one with new numbers. -/
theorem toolpath_insert :
    (compile (a ++ "\n" ++ l ++ "\n" ++ b)).toolpath.toList =
      .start :: (compile (a ++ "\n" ++ b)).moves.map
        (·.renumber (makeRoom (numberedLines a).length)) := by
  rw [← moves_insert hline hinert, moves_compile, toList_toolpath_compile]

/-- The starting point keeps its number, since a line is never put in before the first one. -/
theorem renumbered_insert :
    Renumbered (makeRoom (numberedLines a).length) (compile (a ++ "\n" ++ b))
      (compile (a ++ "\n" ++ l ++ "\n" ++ b)) where
  toolpath := by
    have hfirst : 0 < (numberedLines a).length := by
      have hne : numberedLines a ≠ [] := by simp [numberedLines]
      exact List.length_pos_iff.mpr hne
    rw [toolpath_insert hline hinert, moves_compile, toList_toolpath_compile, List.map_cons,
      ToolPoint.renumber, ToolPoint.start, makeRoom_of_lt hfirst]
  commandAt? := commandAt?_insert hline hinert

/-- The places of the program are the earlier ones. -/
theorem places_insert :
    (compile (a ++ "\n" ++ l ++ "\n" ++ b)).places = (compile (a ++ "\n" ++ b)).places := by
  unfold places
  rw [targets_insert hline hinert, (renumbered_insert hline hinert).toolpath, List.map_map]
  rfl

theorem size_insert :
    (compile (a ++ "\n" ++ l ++ "\n" ++ b)).size = (compile (a ++ "\n" ++ b)).size := by
  unfold size
  rw [← Array.length_toList, (renumbered_insert hline hinert).toolpath, List.length_map,
    Array.length_toList]

end Insert

/-- A line that moves nothing can be put in anywhere after the first line: later points get the next
line number, and box, totals and times stay as they are. -/
theorem compile_insert (a l b : String) (hline : '\n' ∉ l.toList)
    (hinert : Block.Inert l.toList) :
    Inserted (numberedLines a).length (compile (a ++ "\n" ++ b))
      (compile (a ++ "\n" ++ l ++ "\n" ++ b)) where
  toolpath := toolpath_insert hline hinert
  bounds := by
    rw [bounds_eq, bounds_eq, size_insert hline hinert, places_insert hline hinert]
  totals := (renumbered_insert hline hinert).totals_eq
  duration := (renumbered_insert hline hinert).duration_eq
  commandOf? := (renumbered_insert hline hinert).commandOf?_eq

/-- A spindle word between an arc and the line before it. -/
theorem compile_insert_spindle :
    '\n' ∉ "M3 S1000 (on)".toList ∧ Block.Inert "M3 S1000 (on)".toList ∧
      Inserted 1 (compile ("G1 X5" ++ "\n" ++ "G2 X10 I2.5 F100"))
        (compile ("G1 X5" ++ "\n" ++ "M3 S1000 (on)" ++ "\n" ++ "G2 X10 I2.5 F100")) := by
  have hline : '\n' ∉ "M3 S1000 (on)".toList := by decide
  have hinert : Block.Inert "M3 S1000 (on)".toList := by decide +kernel
  have hcount : (numberedLines "G1 X5").length = 1 := by decide
  exact ⟨hline, hinert, hcount ▸ compile_insert "G1 X5" _ "G2 X10 I2.5 F100" hline hinert⟩

end Program

end Milling
