import Milling.Proofs.Lint.LetterCase
import Milling.Proofs.Program.Remark
/-!
Spellings of a program.

A program may be written in lower case, and with any blanks around its lines. Compiling and checking
read a line through functions that do not see the blanks and see the case of letters only in texts
and comments, so they give the same results for each spelling (`compile_spelling`).
-/

namespace Milling

open Text

def Command.lower (c : Command) : Command :=
  { c with text := c.text.toLower, comment := c.comment.map String.toLower }

def Step.lower (s : Step) : Step :=
  { s with command := s.command.lower }

theorem Block.read_trim (s : List Char) : read (trim s) = read s := by
  unfold read
  rw [trim_trim]

/-- A machine does the same on a block in lower case. -/
theorem Machine.step_lower (m : Machine) (line : Nat) (b : Block) :
    m.step line b.lower = ((m.step line b).1.lower, (m.step line b).2) := by
  have hfields : b.lower.fields = b.fields := rfl
  rw [step_of_fields hfields]
  simp only [Block.lower, Step.lower, Command.lower, step_text, step_comment]

namespace Program

/-- The steps of a text in lower case are its steps in lower case. -/
theorem stepsOf_toLower (source : String) :
    stepsOf source.toLower = (stepsOf source).map Step.lower := by
  have hlower : numberedLines source.toLower = (numberedLines source).map (Prod.map lower id) := by
    change (lines source.toLower).zipIdx = (lines source).zipIdx.map (Prod.map lower id)
    rw [lines_toLower, List.zipIdx_map]
  rw [stepsOf, hlower]
  exact Machine.steps_map Block.read_lower Machine.step_lower _ _

theorem stepsOf_trim (source : String) :
    Machine.initial.steps ((lines source).map trim).zipIdx = stepsOf source := by
  rw [List.zipIdx_map]
  have hread : ∀ s, Block.read (trim s) = (Block.read s).map id := fun s => by
    rw [Block.read_trim, Option.map_id, id]
  exact (Machine.steps_map hread (fun _ _ _ => rfl) _ _).trans (List.map_id _)

/-- A program is another one with the texts and comments of its commands in lower case. -/
structure Lowered (p q : Program) : Prop where
  toolpath : q.toolpath = p.toolpath
  bounds : q.bounds = p.bounds
  commands : q.commands = p.commands.map Command.lower

/-- A text in lower case is compiled to the same program with its texts in lower case. -/
theorem lowered_toLower (source : String) : Lowered (compile source) (compile source.toLower) := by
  obtain ⟨hpath, hbounds⟩ := compile_congr source source.toLower
    (by rw [stepsOf_toLower, List.flatMap_map]; rfl)
    (by rw [stepsOf_toLower, List.filterMap_map]; rfl)
  refine ⟨hpath, hbounds, ?_⟩
  rw [← Array.toList_inj, Array.toList_map, toList_commands_compile, toList_commands_compile,
    stepsOf_toLower, List.map_map, List.map_map]
  rfl

end Program

namespace Lint

theorem activeCode_trim (line : List Char) : activeCode (trim line) = activeCode line := by
  unfold activeCode
  rw [trim_trim]

/-- A pass that does not see a spelling of lines checks the same with it. -/
theorem foldl_spelling {spell : List Char → List Char}
    (hline : ∀ line n (s : Pass), s.line (spell line, n) = s.line (line, n))
    (numbered : List (List Char × Nat)) (s : Pass) :
    (numbered.map (Prod.map spell id)).foldl Pass.line s = numbered.foldl Pass.line s := by
  rw [List.foldl_map]
  exact List.foldl_ext _ _ s fun s l _ => hline l.1 l.2 s

theorem check_eq (source : String) :
    check source =
      .ofIssues ((lines source).zipIdx.foldl Pass.line .initial).issues.toList := rfl

/-- A text in lower case has the same report. -/
theorem check_toLower (source : String) : check source.toLower = check source := by
  rw [check_eq, check_eq, lines_toLower, List.zipIdx_map, foldl_spelling line_lower]

theorem check_trim (source : String) :
    Report.ofIssues (((lines source).map trim).zipIdx.foldl Pass.line .initial).issues.toList =
      check source := by
  have hline : ∀ line n (s : Pass), s.line (trim line, n) = s.line (line, n) :=
    fun line n s => line_congr n s (activeCode_trim line)
  rw [List.zipIdx_map, foldl_spelling hline, check_eq]

end Lint

namespace Program

/-- Neither the case of letters nor blanks around lines matter: in lower case a program compiles to
the same with its texts and comments in lower case, and the same is found wrong with it; with other
blanks around its lines, nothing at all is different. -/
theorem compile_spelling (source : String) :
    Lowered (compile source) (compile source.toLower) ∧
      Lint.check source.toLower = Lint.check source ∧
      ∀ source', (lines source').map trim = (lines source).map trim →
        compile source' = compile source ∧ Lint.check source' = Lint.check source := by
  refine ⟨lowered_toLower source, Lint.check_toLower source, fun source' h => ⟨?_, ?_⟩⟩
  · rw [compile_eq_ofSteps, compile_eq_ofSteps]
    change ofSteps (stepsOf source') = ofSteps (stepsOf source)
    rw [← stepsOf_trim source', ← stepsOf_trim source, h]
  · rw [← Lint.check_trim source', ← Lint.check_trim source, h]

/-- Line ends with and without carriage return, and an indented line. -/
theorem compile_spelling_crlf :
    (lines "G1 X5 F9\r\n  m03\r\n").map trim = (lines "G1 X5 F9\nm03\n").map trim ∧
      compile "G1 X5 F9\r\n  m03\r\n" = compile "G1 X5 F9\nm03\n" ∧
      Lint.check "G1 X5 F9\r\n  m03\r\n" = Lint.check "G1 X5 F9\nm03\n" := by
  have hlines : (lines "G1 X5 F9\r\n  m03\r\n").map trim = (lines "G1 X5 F9\nm03\n").map trim := by
    decide
  obtain ⟨-, -, hspelling⟩ := compile_spelling "G1 X5 F9\nm03\n"
  exact ⟨hlines, hspelling _ hlines⟩

end Program

end Milling
