/-!
The lines of a text.

A text is cut at its line feeds; no line holds one (`not_mem_of_mem_lines`), and lines without line
feed are the lines of the text that they make (`lines_ofLines`). `setLine` puts another line in
place of one of them.
-/

namespace Milling.Text

def lines (source : String) : List (List Char) :=
  source.toList.splitOn '\n'

def ofLines (ls : List (List Char)) : String :=
  String.ofList (['\n'].intercalate ls)

/-- The text with another line in place of the one with the given number. -/
def setLine (source : String) (n : Nat) (line : List Char) : String :=
  ofLines ((lines source).set n line)

theorem not_mem_of_mem_splitOn {x : Char} {s l : List Char} (h : l ∈ s.splitOn x) : x ∉ l := by
  induction s generalizing l with
  | nil =>
    rw [List.splitOn_nil, List.mem_singleton] at h
    simp [h]
  | cons c rest ih =>
    rw [List.splitOn_cons_eq_if_modifyHead] at h
    obtain ⟨first, others, hrest⟩ := List.exists_cons_of_ne_nil (List.splitOn_ne_nil x rest)
    rw [hrest] at h ih
    split at h
    · rcases List.mem_cons.mp h with rfl | h
      · simp
      · exact ih h
    · rename_i hc
      rcases List.mem_cons.mp h with rfl | h
      · intro hx
        rcases List.mem_cons.mp hx with rfl | hx
        · simp at hc
        · exact ih List.mem_cons_self hx
      · exact ih (List.mem_cons_of_mem _ h)

/-- No line holds a line feed. -/
theorem not_mem_of_mem_lines {source : String} {line : List Char} (h : line ∈ lines source) :
    '\n' ∉ line :=
  not_mem_of_mem_splitOn h

theorem lines_ne_nil (source : String) : lines source ≠ [] :=
  List.splitOn_ne_nil _ _

/-- Lines that are joined are split into the same lines again. -/
theorem lines_ofLines {ls : List (List Char)} (hls : ∀ l ∈ ls, '\n' ∉ l) (hne : ls ≠ []) :
    lines (ofLines ls) = ls := by
  rw [lines, ofLines, String.toList_ofList, List.splitOn_intercalate '\n' hls hne]

theorem lines_setLine {source : String} {line : List Char} (hline : '\n' ∉ line) (n : Nat) :
    lines (setLine source n line) = (lines source).set n line := by
  refine lines_ofLines ?_ ?_
  · intro l hl
    rcases List.mem_or_eq_of_mem_set hl with hl | rfl
    · exact not_mem_of_mem_lines hl
    · exact hline
  · intro hnil
    exact lines_ne_nil source (by simpa using hnil)

/-- A line with the lines before and after it; putting another one in its place leaves these. -/
theorem exists_lines_eq {source : String} {n : Nat} {old : List Char}
    (h : (lines source)[n]? = some old) :
    ∃ pre post, pre.length = n ∧ lines source = pre ++ old :: post ∧
      ∀ new, '\n' ∉ new → lines (setLine source n new) = pre ++ new :: post := by
  obtain ⟨hn, hold⟩ := List.getElem?_eq_some_iff.mp h
  refine ⟨(lines source).take n, (lines source).drop (n + 1), ?_, ?_, ?_⟩
  · rw [List.length_take, Nat.min_eq_left (Nat.le_of_lt hn)]
  · rw [← hold, List.getElem_cons_drop, List.take_append_drop]
  · intro new hnew
    rw [lines_setLine hnew, List.set_eq_take_append_cons_drop, if_pos hn]

end Milling.Text
