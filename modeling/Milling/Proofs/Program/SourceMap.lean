import Mathlib.Data.List.Basic
import Milling.Proofs.Program.Modal
/-!
The source map of a compiled program.

Lines of the text, commands and points of the toolpath are three sequences that are built in one
run. `SourceMap` says how they belong together: every line that is not blank has one command, every
point after the start has the command that sent the tool there, and each command has its points in
one piece (`Command.Share` tells how many). `compile_sourceMap` proves it for every text.
-/

namespace Milling

/-- How many points a command adds: none without a coordinate, at least eight for an arc around a
given centre, and else one. -/
structure Command.Share (c : Command) (count : Nat) : Prop where
  still : c.hasAxis = false → count = 0
  straight : c.hasAxis = true → ¬ (c.motion.isArc ∧ c.hasOffset) → count = 1
  arc : c.hasAxis = true → c.motion.isArc → c.hasOffset → 8 ≤ count

namespace Program

/-- The points of the toolpath after its start. -/
def moves (p : Program) : List ToolPoint :=
  p.toolpath.toList.tail

/-- A line that is not blank, with its number and its text without blanks at the ends. -/
def trimmedLine? (numbered : List Char × Nat) : Option (Nat × String) :=
  if Text.trim numbered.1 = [] then none
  else some (numbered.2, String.ofList (Text.trim numbered.1))

/-- The lines of a text, the commands and the points of a program belong together. -/
structure SourceMap (source : String) (p : Program) : Prop where
  commands : p.commands.toList.map (fun c => (c.line, c.text)) =
    (numberedLines source).filterMap trimmedLine?
  increasing : (p.commands.toList.map (·.line)).Pairwise (· < ·)
  start : p.toolpath[0]? = some .start
  ordered : (p.moves.map (·.line)).Pairwise (· ≤ ·)
  sender : ∀ t ∈ p.moves, ∃ c ∈ p.commands,
    c.line = t.line ∧ c.hasAxis ∧ c.motion ≠ .other ∧ (t.kind = .rapid ↔ c.motion = .rapid)
  share : ∀ c ∈ p.commands, ∃ earlier own later, p.moves = earlier ++ own ++ later ∧
    (∀ t ∈ earlier, t.line < c.line) ∧ (∀ t ∈ own, t.line = c.line) ∧
    (∀ t ∈ later, c.line < t.line) ∧ c.Share own.length

/-! ### The motion of a moving command -/

end Program

/-- No code selects the motion of a command that does not move. -/
theorem Motion.ofCode?_ne_other (n : Nat) : Motion.ofCode? n ≠ some .other := by
  unfold Motion.ofCode?
  split <;> simp

theorem Motion.ofCode?_of_lt {n : Nat} (h : 3 < n) : Motion.ofCode? n = none :=
  match n, h with
  | _ + 4, _ => rfl

theorem Command.code?_ne_other (c : Command) : c.code? ≠ some .other := by
  unfold Command.code?
  cases c.g with
  | none => simp
  | some n => exact Motion.ofCode?_ne_other n

theorem latest?_code?_ne_other (cs : List Command) :
    latest? Command.code? cs ≠ some .other := by
  intro h
  obtain ⟨c, -, hc⟩ := List.exists_of_findSome?_eq_some h
  exact c.code?_ne_other hc

/-- The mode that a coordinate falls back on is never `other`, since no code selects that. -/
theorem Program.motionAt_ne_other (p : Program) {c : Command} (h : c.hasAxis = true) :
    p.motionAt c ≠ .other := by
  unfold motionAt
  cases hcode : c.code? with
  | some motion =>
    rintro rfl
    exact c.code?_ne_other hcode
  | none =>
    simp only [h, if_true]
    cases hlatest : latest? Command.code? (p.before c.line) with
    | none => simp
    | some motion =>
      rintro rfl
      exact latest?_code?_ne_other _ hlatest

namespace Machine

/-! ### The points of one command -/

section Group

variable {tool target : Point} {c : Command}

/-- The points of a command tell its line, and how the tool gets there. -/
theorem mem_group {t : ToolPoint} (h : t ∈ group tool target c) :
    t.line = c.line ∧ c.hasAxis ∧ (t.kind = .rapid ↔ c.motion = .rapid) := by
  unfold group at h
  split at h
  · rename_i haxis
    split at h
    · rename_i harc
      obtain ⟨p, -, rfl⟩ := List.mem_map.mp h
      refine ⟨rfl, haxis, ?_⟩
      cases hmotion : c.motion <;> simp_all [Motion.isArc]
    · obtain rfl := List.mem_singleton.mp h
      refine ⟨rfl, haxis, ?_⟩
      cases c.motion <;> simp [MoveKind.ofMotion]
  · cases h

/-- An arc has eight points at least. -/
theorem eight_le_length_points (a b : Point) (i j : Float) (clockwise : Bool) :
    8 ≤ (Arc.points a b i j clockwise).length := by
  unfold Arc.points
  rw [List.length_map, List.length_range]
  exact Nat.le_max_right _ _

/-- A command adds its share of points. -/
theorem share_group : c.Share (group tool target c).length := by
  constructor
  · intro haxis
    simp [group, haxis]
  · intro haxis hstraight
    have hfalse : (c.motion.isArc && c.hasOffset) = false := by simpa using hstraight
    simp [group, haxis, hfalse]
  · intro haxis harc hoffset
    have htrue : (c.motion.isArc && c.hasOffset) = true := by simp [harc, hoffset]
    simpa [group, haxis, htrue] using eight_le_length_points _ _ _ _ _

end Group

end Machine

namespace Program

section Compiled

variable {source : String} {s : Step}

theorem moves_compile (source : String) :
    (compile source).moves = (stepsOf source).flatMap (·.path) := by
  rw [moves, toList_toolpath_compile, List.tail_cons]

/-- The points of a step are those of its command. -/
theorem path_of_mem (h : s ∈ stepsOf source) :
    ∃ tool target, s.path = Machine.group tool target s.command := by
  obtain ⟨pre, post, hsplit⟩ := List.append_of_mem h
  obtain ⟨last, -, hpath⟩ := path_of_split hsplit
  exact ⟨_, _, hpath⟩

theorem line_of_mem_path (h : s ∈ stepsOf source) {t : ToolPoint} (ht : t ∈ s.path) :
    t.line = s.command.line := by
  obtain ⟨tool, target, hpath⟩ := path_of_mem h
  rw [hpath] at ht
  exact (Machine.mem_group ht).1

/-- The lines that the points of some steps name are lines of these steps. -/
theorem line_of_mem_flatMap {steps : List Step} (hsub : ∀ s ∈ steps, s ∈ stepsOf source)
    {t : ToolPoint} (ht : t ∈ steps.flatMap (·.path)) :
    ∃ s ∈ steps, t.line = s.command.line := by
  obtain ⟨s, hs, ht⟩ := List.mem_flatMap.mp ht
  exact ⟨s, hs, line_of_mem_path (hsub s hs) ht⟩

theorem steps_increasing (source : String) :
    (stepsOf source).Pairwise fun a b => a.command.line < b.command.line := by
  have h := lines_increasing source
  rwa [toList_commands_compile, List.map_map, List.pairwise_map] at h

/-- The points are in the order of their lines. -/
theorem moves_ordered (source : String) :
    ((compile source).moves.map (·.line)).Pairwise (· ≤ ·) := by
  rw [moves_compile, List.pairwise_map, List.pairwise_flatMap]
  constructor
  · intro s hs
    refine List.pairwise_of_forall_mem_list fun a ha b hb => ?_
    exact Nat.le_of_eq ((line_of_mem_path hs ha).trans (line_of_mem_path hs hb).symm)
  · refine (steps_increasing source).imp_of_mem fun hr hs hlt a ha b hb => ?_
    rw [line_of_mem_path hr ha, line_of_mem_path hs hb]
    exact Nat.le_of_lt hlt

/-- Every point after the start was sent by a command of its line that names an axis. -/
theorem sender_of_mem {t : ToolPoint} (h : t ∈ (compile source).moves) :
    ∃ c ∈ (compile source).commands, c.line = t.line ∧ c.hasAxis ∧ c.motion ≠ .other ∧
      (t.kind = .rapid ↔ c.motion = .rapid) := by
  rw [moves_compile] at h
  obtain ⟨s, hs, ht⟩ := List.mem_flatMap.mp h
  obtain ⟨pre, post, hsplit⟩ := List.append_of_mem hs
  obtain ⟨last, -, hpath⟩ := path_of_split hsplit
  rw [hpath] at ht
  obtain ⟨hline, haxis, hkind⟩ := Machine.mem_group ht
  refine ⟨s.command, ?_, hline.symm, haxis, ?_, hkind⟩
  · rw [← Array.mem_toList_iff, toList_commands_compile]
    exact List.mem_map_of_mem hs
  · rw [motion_of_split hsplit]
    exact motionAt_ne_other _ haxis

/-- The points of a command stand together, after those of earlier lines and before those of later
ones. -/
theorem share_of_split {pre post : List Step} (h : stepsOf source = pre ++ s :: post) :
    ∃ earlier own later, (compile source).moves = earlier ++ own ++ later ∧
      (∀ t ∈ earlier, t.line < s.command.line) ∧ (∀ t ∈ own, t.line = s.command.line) ∧
      (∀ t ∈ later, s.command.line < t.line) ∧ s.command.Share own.length := by
  obtain ⟨hpre, hpost⟩ := line_lt_of_split (lines_increasing source) (commands_split h)
  refine ⟨pre.flatMap (·.path), s.path, post.flatMap (·.path), ?_, ?_, ?_, ?_, ?_⟩
  · rw [moves_compile, h]
    simp
  · intro t ht
    have hsub : ∀ r ∈ pre, r ∈ stepsOf source := fun r hr => h ▸ List.mem_append_left _ hr
    obtain ⟨r, hr, hline⟩ := line_of_mem_flatMap hsub ht
    rw [hline]
    exact hpre _ (List.mem_map_of_mem hr)
  · intro t ht
    have hs : s ∈ stepsOf source := by simp [h]
    exact line_of_mem_path hs ht
  · intro t ht
    have hsub : ∀ r ∈ post, r ∈ stepsOf source :=
      fun r hr => h ▸ List.mem_append_right _ (List.mem_cons_of_mem _ hr)
    obtain ⟨r, hr, hline⟩ := line_of_mem_flatMap hsub ht
    rw [hline]
    exact hpost _ (List.mem_map_of_mem hr)
  · obtain ⟨last, -, hpath⟩ := path_of_split h
    rw [hpath]
    exact Machine.share_group

/-- The commands of the lines, seen without their numbers and comments. -/
theorem trimmedLine?_eq (numbered : List Char × Nat) :
    trimmedLine? numbered = (Block.read numbered.1).map fun b => (numbered.2, b.text) := by
  unfold trimmedLine?
  cases hread : Block.read numbered.1 with
  | none => simp [Block.read_eq_none_iff.mp hread]
  | some b =>
    have hne : Text.trim numbered.1 ≠ [] := by
      intro hnil
      rw [Block.read_eq_none_iff.mpr hnil] at hread
      cases hread
    simp [hne, Block.text_of_read hread]

/-- The commands are the lines that are not blank, with their numbers. -/
theorem commands_compile_trimmed (source : String) :
    (compile source).commands.toList.map (fun c => (c.line, c.text)) =
      (numberedLines source).filterMap trimmedLine? := by
  have h := congrArg (List.map fun r : Nat × String × Option String × Block.Fields =>
    (r.1, r.2.1)) (commands_compile source)
  rw [List.map_map, List.map_filterMap] at h
  refine h.trans (List.filterMap_congr fun numbered _ => ?_)
  rw [trimmedLine?_eq, Option.map_map]
  rfl

end Compiled

/-- Lines, commands and points of every compiled text belong together. -/
theorem compile_sourceMap (source : String) : SourceMap source (compile source) where
  commands := commands_compile_trimmed source
  increasing := lines_increasing source
  start := by
    rw [← Array.getElem?_toList, toList_toolpath_compile]
    rfl
  ordered := moves_ordered source
  sender _ h := sender_of_mem h
  share c h := by
    rw [← Array.mem_toList_iff, toList_commands_compile] at h
    obtain ⟨s, hs, rfl⟩ := List.mem_map.mp h
    obtain ⟨pre, post, hsplit⟩ := List.append_of_mem hs
    exact share_of_split hsplit

end Program

end Milling
