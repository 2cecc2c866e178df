import Milling.Proofs.Block.Comment
import Milling.Proofs.Program.Prefix
import Milling.Proofs.Text.Lines
/-!
Comments in a program.

What a block does is told by its fields: blocks with the same fields move a machine in the same way
and differ in the text and the comment of their commands only (`Machine.step_of_fields`). Since
comments leave no trace in the code of a line, putting one in changes nothing else of the program
(`compile_comment`).
-/

namespace Milling

/-- The command with the text and the comment of another line. -/
def Command.onLine (c : Command) (line : List Char) : Command :=
  { c with
    text := String.ofList (Text.trim line)
    comment := (Block.comment? (Text.trim line)).map String.ofList }

namespace Block

/-- The fields of a block are those of its code, and none if it has no code. -/
theorem fields_of_read {s : List Char} {b : Block} (hline : '\n' ∉ s) (h : read s = some b) :
    b.fields = if (code s).isEmpty then none else some (readFields (code s)) := by
  unfold read at h
  dsimp only at h
  split at h
  · cases h
  · cases h
    rw [code_trim hline]

theorem comment_of_read {s : List Char} {b : Block} (h : read s = some b) :
    b.comment = (comment? (Text.trim s)).map String.ofList := by
  unfold read at h
  dsimp only at h
  split at h
  · cases h
  · cases h
    rfl

/-- A line without code is blank or holds only comments. -/
theorem code_of_trim_eq_nil {s : List Char} (hline : '\n' ∉ s) (h : Text.trim s = []) :
    code s = [] := by
  rw [← code_trim hline, h, code_nil]

end Block

namespace Machine

variable {m : Machine} {line : Nat}

/-- The machine reads nothing of a block but its fields. -/
theorem step_of_fields {b b' : Block} (h : b'.fields = b.fields) :
    m.step line b' =
      ({ (m.step line b).1 with
          command := { (m.step line b).1.command with text := b'.text, comment := b'.comment } },
        (m.step line b).2) := by
  unfold step
  rw [h]
  cases b.fields with
  | none => rfl
  | some w => by_cases haxis : w.hasAxis <;> simp [haxis, Command.ofFields]

theorem step_of_comment {s : List Char} {b : Block} (hread : Block.read s = some b)
    (hfields : b.fields = none) :
    m.step line b = (⟨(Command.ofComment line "" none).onLine s, [], none⟩, m) := by
  unfold step
  rw [hfields]
  simp only [Command.ofComment, Command.onLine, Block.text_of_read hread,
    Block.comment_of_read hread]

/-- Blocks with the same fields do the same, but for the text and the comment of their commands. -/
theorem step_onLine {s : List Char} {b b' : Block} (hread : Block.read s = some b')
    (hfields : b'.fields = b.fields) :
    m.step line b' =
      ({ (m.step line b).1 with command := (m.step line b).1.command.onLine s },
        (m.step line b).2) := by
  rw [step_of_fields hfields]
  simp only [Command.onLine, Block.text_of_read hread, Block.comment_of_read hread]

end Machine

namespace Program

/-- A program is another one after the line `n` was changed in its comments: the command of the
line has the new text and comment, or is new itself if the line was blank. -/
structure Remarked (n : Nat) (old new : List Char) (p q : Program) : Prop where
  toolpath : q.toolpath = p.toolpath
  bounds : q.bounds = p.bounds
  commands : ∃ earlier later, (∀ c ∈ earlier, c.line < n) ∧ (∀ c ∈ later, n < c.line) ∧
    if Text.trim old = [] then
      p.commands.toList = earlier ++ later ∧
        q.commands.toList = earlier ++ (Command.ofComment n "" none).onLine new :: later
    else ∃ c, c.line = n ∧ p.commands.toList = earlier ++ c :: later ∧
      q.commands.toList = earlier ++ c.onLine new :: later

section Change

variable {source source' : String} {pre post : List (List Char)} {old new : List Char}

/-- The run over a text up to one of its lines, and the machine that meets this line. -/
theorem stepsOf_of_lines (pre post : List (List Char)) :
    ∃ (earlier : List Step) (m : Machine), ∀ source line,
      Text.lines source = pre ++ line :: post →
        stepsOf source =
          earlier ++ m.steps ((line, pre.length) :: post.zipIdx (pre.length + 1)) := by
  refine ⟨Machine.initial.steps pre.zipIdx, Machine.initial.after pre.zipIdx, ?_⟩
  intro source line hlines
  have hnumbered : numberedLines source = (Text.lines source).zipIdx := rfl
  rw [stepsOf, hnumbered, hlines, List.zipIdx_append, Machine.steps_append, List.zipIdx_cons,
    Nat.zero_add]

/-- Toolpath and box are told by the points and the targets of the steps. -/
theorem compile_congr (source source' : String)
    (hpath : (stepsOf source').flatMap (·.path) = (stepsOf source).flatMap (·.path))
    (htarget : (stepsOf source').filterMap (·.target) = (stepsOf source).filterMap (·.target)) :
    (compile source').toolpath = (compile source).toolpath ∧
      (compile source').bounds = (compile source).bounds := by
  rw [compile_eq_ofSteps, compile_eq_ofSteps]
  change (ofSteps (stepsOf source')).toolpath = (ofSteps (stepsOf source)).toolpath ∧
    (ofSteps (stepsOf source')).bounds = (ofSteps (stepsOf source)).bounds
  simp only [ofSteps, hpath, htarget, and_self]

/-- The step of the line is the old one with another text and comment, or a new one that moves
nothing. -/
theorem exists_steps_remark (hold : Text.lines source = pre ++ old :: post)
    (hnew : Text.lines source' = pre ++ new :: post) (hcode : Block.code new = Block.code old)
    (hne : Text.trim new ≠ []) :
    ∃ earlier later,
      if Text.trim old = [] then
        stepsOf source = earlier ++ later ∧
          stepsOf source' = earlier ++
            ⟨(Command.ofComment pre.length "" none).onLine new, [], none⟩ :: later
      else ∃ s, s.command.line = pre.length ∧ stepsOf source = earlier ++ s :: later ∧
        stepsOf source' = earlier ++ { s with command := s.command.onLine new } :: later := by
  obtain ⟨earlier, m, hsteps⟩ := stepsOf_of_lines pre post
  have hmemOld : old ∈ Text.lines source := by simp [hold]
  have hmemNew : new ∈ Text.lines source' := by simp [hnew]
  have hlineOld : '\n' ∉ old := Text.not_mem_of_mem_lines hmemOld
  have hlineNew : '\n' ∉ new := Text.not_mem_of_mem_lines hmemNew
  obtain ⟨b', hread'⟩ : ∃ b', Block.read new = some b' :=
    Option.ne_none_iff_exists'.mp fun hnone => hne (Block.read_eq_none_iff.mp hnone)
  rw [hsteps source old hold, hsteps source' new hnew, Machine.steps_cons_block hread']
  cases hread : Block.read old with
  | none =>
    have hblank : Text.trim old = [] := Block.read_eq_none_iff.mp hread
    have hfields : b'.fields = none := by
      rw [Block.fields_of_read hlineNew hread', hcode, Block.code_of_trim_eq_nil hlineOld hblank]
      rfl
    refine ⟨earlier, m.steps (post.zipIdx (pre.length + 1)), ?_⟩
    rw [if_pos hblank, Machine.steps_cons_blank hread, Machine.step_of_comment hread' hfields]
    exact ⟨rfl, rfl⟩
  | some b =>
    have hblank : Text.trim old ≠ [] := fun hnil => by
      rw [Block.read_eq_none_iff.mpr hnil] at hread
      cases hread
    have hfields : b'.fields = b.fields := by
      rw [Block.fields_of_read hlineNew hread', Block.fields_of_read hlineOld hread, hcode]
    refine ⟨earlier, (m.step pre.length b).2.steps (post.zipIdx (pre.length + 1)), ?_⟩
    rw [if_neg hblank, Machine.steps_cons_block hread, Machine.step_onLine hread' hfields]
    exact ⟨(m.step pre.length b).1, Machine.step_line m _ b, rfl, rfl⟩

/-- Lines with the same code make programs that differ in the comments of one line. -/
theorem remarked_of_code (hold : Text.lines source = pre ++ old :: post)
    (hnew : Text.lines source' = pre ++ new :: post) (hcode : Block.code new = Block.code old)
    (hne : Text.trim new ≠ []) :
    Remarked pre.length old new (compile source) (compile source') := by
  obtain ⟨earlier, later, hsteps⟩ := exists_steps_remark hold hnew hcode hne
  split at hsteps
  · rename_i hblank
    obtain ⟨hsource, hsource'⟩ := hsteps
    obtain ⟨hpath, hbounds⟩ := compile_congr source source'
      (by simp [hsource, hsource']) (by simp [hsource, hsource'])
    obtain ⟨hbefore, hafter⟩ := line_lt_of_split (lines_increasing source')
      (commands_split hsource')
    refine ⟨hpath, hbounds, earlier.map (·.command), later.map (·.command), hbefore, hafter, ?_⟩
    rw [if_pos hblank, commands_split hsource', toList_commands_compile, hsource, List.map_append]
    exact ⟨rfl, rfl⟩
  · rename_i hblank
    obtain ⟨s, hline, hsource, hsource'⟩ := hsteps
    obtain ⟨hpath, hbounds⟩ := compile_congr source source'
      (by simp [hsource, hsource']) (by simp [hsource, hsource', List.filterMap_cons])
    obtain ⟨hbefore, hafter⟩ := line_lt_of_split (lines_increasing source) (commands_split hsource)
    rw [hline] at hbefore hafter
    refine ⟨hpath, hbounds, earlier.map (·.command), later.map (·.command), hbefore, hafter, ?_⟩
    rw [if_neg hblank, commands_split hsource', commands_split hsource]
    exact ⟨s.command, hline, rfl, rfl⟩

end Change

/-- A comment in parentheses can be put in anywhere on a line where no parenthesis is open, and a
comment after a semicolon at the end of any line, if it closes no parenthesis. -/
theorem compile_comment (source : String) (n : Nat) (line : List Char)
    (h : (Text.lines source)[n]? = some line) :
    (∀ p q c, line = p ++ q → Block.Closed p → ')' ∉ c → '\n' ∉ c →
      Remarked n line (p ++ '(' :: (c ++ ')' :: q)) (compile source)
        (compile (Text.setLine source n (p ++ '(' :: (c ++ ')' :: q))))) ∧
    ∀ t, ')' ∉ t → '\n' ∉ t →
      Remarked n line (line ++ ';' :: t) (compile source)
        (compile (Text.setLine source n (line ++ ';' :: t))) := by
  obtain ⟨pre, post, rfl, hold, hset⟩ := Text.exists_lines_eq h
  have hline : '\n' ∉ line := Text.not_mem_of_mem_lines (List.mem_of_getElem? h)
  constructor
  · rintro p q c rfl hclosed hc hfeed
    have hnew : '\n' ∉ p ++ '(' :: (c ++ ')' :: q) := by
      simp only [List.mem_append, not_or] at hline
      simp [hline, hfeed]
    have hne : Text.trim (p ++ '(' :: (c ++ ')' :: q)) ≠ [] := fun hnil =>
      absurd (Text.trim_eq_nil_iff.mp hnil '(' (by simp)) (by decide)
    exact remarked_of_code hold (hset _ hnew) (Block.code_insert hclosed hc hnew) hne
  · intro t ht hfeed
    have hnew : '\n' ∉ line ++ ';' :: t := by simp [hline, hfeed]
    have hne : Text.trim (line ++ ';' :: t) ≠ [] := fun hnil =>
      absurd (Text.trim_eq_nil_iff.mp hnil ';' (by simp)) (by decide)
    exact remarked_of_code hold (hset _ hnew) (Block.code_append ht hnew) hne

/-- A comment with a semicolon and an open parenthesis, put in after another comment, and a comment
at the end that opens a parenthesis. -/
theorem compile_comment_nested :
    (Text.lines "G1 (a) X5\nG2 X9 I2")[0]? = some "G1 (a) X5".toList ∧
      Block.Closed "G1 (a)".toList ∧ ')' ∉ "; (b".toList ∧ '\n' ∉ "; (b".toList ∧
      Remarked 0 "G1 (a) X5".toList "G1 (a)(; (b) X5".toList (compile "G1 (a) X5\nG2 X9 I2")
        (compile (Text.setLine "G1 (a) X5\nG2 X9 I2" 0 "G1 (a)(; (b) X5".toList)) ∧
      Remarked 0 "G1 (a) X5".toList "G1 (a) X5;; (b".toList (compile "G1 (a) X5\nG2 X9 I2")
        (compile (Text.setLine "G1 (a) X5\nG2 X9 I2" 0 "G1 (a) X5;; (b".toList)) := by
  have hline : (Text.lines "G1 (a) X5\nG2 X9 I2")[0]? = some "G1 (a) X5".toList := by decide
  have hclosed : Block.Closed "G1 (a)".toList := by decide
  have hclose : ')' ∉ "; (b".toList := by decide
  have hfeed : '\n' ∉ "; (b".toList := by decide
  obtain ⟨hinsert, happend⟩ := compile_comment _ 0 _ hline
  exact ⟨hline, hclosed, hclose, hfeed,
    hinsert "G1 (a)".toList " X5".toList "; (b".toList (by decide) hclosed hclose hfeed,
    happend "; (b".toList hclose hfeed⟩

end Program

end Milling
