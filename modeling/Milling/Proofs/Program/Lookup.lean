import Milling.Proofs.Program.SourceMap
import Milling.Proofs.Text.Lines
/-!
Looking up the command of a line.

`Program.search` halves a range of the command list. What it finds is a command of the line
(`mem_of_search`), and where lines are in strict order it finds the command that is there
(`search_of_getElem?`), since a half is only left out if all its lines are on the wrong side. So
the lookup is membership in the command list (`commandAt?_eq_some_iff`). In a compiled text the
lines with a command are those that are not blank, so nothing that belongs to a line or to a point
of the toolpath is ever missed (`compile_retrieves`).
-/

namespace Milling.Program

variable {commands : Array Command} {line low high : Nat} {c : Command}

/-- What a search finds is a command of the line. -/
theorem mem_of_search (h : search commands line low high = some c) :
    c ∈ commands ∧ c.line = line := by
  induction low, high using search.induct commands line with
  | case1 low high hlt middle hnone =>
    rw [search, if_pos hlt] at h
    simp only [middle] at hnone
    simp [hnone] at h
  | case2 low high hlt middle d hd heq =>
    rw [search, if_pos hlt] at h
    simp only [middle] at hd
    simp only [hd, heq, if_true, Option.some.injEq] at h
    subst h
    exact ⟨Array.mem_of_getElem? hd, heq⟩
  | case3 low high hlt middle d hd hne hbelow ih =>
    rw [search, if_pos hlt] at h
    simp only [middle] at hd ih
    simp only [hd, if_neg hne, if_pos hbelow] at h
    exact ih h
  | case4 low high hlt middle d hd hne hbelow ih =>
    rw [search, if_pos hlt] at h
    simp only [middle] at hd ih
    simp only [hd, if_neg hne, if_neg hbelow] at h
    exact ih h
  | case5 low high hlt =>
    rw [search, if_neg hlt] at h
    cases h

/-- In a list with lines in strict order, indices are ordered as lines are. -/
theorem line_lt_iff (hs : (commands.toList.map (·.line)).Pairwise (· < ·)) {i j : Nat}
    {a b : Command} (ha : commands[i]? = some a) (hb : commands[j]? = some b) :
    a.line < b.line ↔ i < j := by
  have hmono : ∀ {i j : Nat} {a b : Command}, commands[i]? = some a → commands[j]? = some b →
      i < j → a.line < b.line := by
    intro i j a b ha hb hij
    rw [List.pairwise_map, List.pairwise_iff_getElem] at hs
    obtain ⟨hi, rfl⟩ := Array.getElem?_eq_some_iff.mp ha
    obtain ⟨hj, rfl⟩ := Array.getElem?_eq_some_iff.mp hb
    exact hs i j (by simpa using hi) (by simpa using hj) hij
  constructor
  · intro hlt
    rcases Nat.lt_trichotomy i j with h | rfl | h
    · exact h
    · rw [ha, Option.some.injEq] at hb
      subst hb
      exact absurd hlt (Nat.lt_irrefl _)
    · exact absurd (hmono hb ha h) (Nat.lt_asymm hlt)
  · exact hmono ha hb

/-- A search finds a command whose index is in its range. The induction halves the range as the
search does. -/
theorem search_of_getElem? (hs : (commands.toList.map (·.line)).Pairwise (· < ·)) {index : Nat}
    (hc : commands[index]? = some c) (hlow : low ≤ index) (hhigh : index < high)
    (hsize : high ≤ commands.size) : search commands c.line low high = some c := by
  induction low, high using search.induct commands c.line with
  | case1 low high hlt middle hnone =>
    have := Array.getElem?_eq_none_iff.mp hnone
    omega
  | case2 low high hlt middle d hd heq =>
    -- Two commands of one line are at one index.
    have hindex : index = middle := by
      have h₁ := line_lt_iff hs hc hd
      have h₂ := line_lt_iff hs hd hc
      omega
    rw [search, if_pos hlt]
    rw [hindex] at hc
    simp only [middle] at hd hc
    simp only [hd, heq, if_true, Option.some.injEq]
    exact Option.some.inj (hd.symm.trans hc)
  | case3 low high hlt middle d hd hne hbelow ih =>
    have hindex : middle < index := (line_lt_iff hs hd hc).mp hbelow
    rw [search, if_pos hlt]
    simp only [middle] at hd ih hindex
    simp only [hd, if_neg hne, if_pos hbelow]
    exact ih (by omega) hhigh hsize
  | case4 low high hlt middle d hd hne hbelow ih =>
    have hindex : index < middle := (line_lt_iff hs hc hd).mp (by omega)
    rw [search, if_pos hlt]
    simp only [middle] at hd ih hindex
    simp only [hd, if_neg hne, if_neg hbelow]
    exact ih hlow hindex (by omega)
  | case5 low high hlt => omega

/-- With lines in strict order the command that is found for a line is the one that is there. -/
theorem commandAt?_eq_some_iff {p : Program}
    (hs : (p.commands.toList.map (·.line)).Pairwise (· < ·)) :
    p.commandAt? line = some c ↔ c ∈ p.commands ∧ c.line = line := by
  constructor
  · exact mem_of_search
  · rintro ⟨hmem, rfl⟩
    obtain ⟨index, hc⟩ := Array.mem_iff_getElem?.mp hmem
    obtain ⟨hindex, -⟩ := Array.getElem?_eq_some_iff.mp hc
    exact search_of_getElem? hs hc (Nat.zero_le _) hindex (Nat.le_refl _)

/-- With lines in strict order, halving finds what going through all commands finds. -/
theorem commandAt?_eq_find? {p : Program}
    (hs : (p.commands.toList.map (·.line)).Pairwise (· < ·)) (line : Nat) :
    p.commandAt? line = p.commands.toList.find? (·.line == line) := by
  cases hfind : p.commands.toList.find? (·.line == line) with
  | some c =>
    have hmem := Array.mem_toList_iff.mp (List.mem_of_find?_eq_some hfind)
    have hline : c.line = line := by simpa using List.find?_some hfind
    exact (commandAt?_eq_some_iff hs).mpr ⟨hmem, hline⟩
  | none =>
    rw [Option.eq_none_iff_forall_ne_some]
    intro c hc
    obtain ⟨hmem, hline⟩ := mem_of_search hc
    have hne := List.find?_eq_none.mp hfind c (Array.mem_toList_iff.mpr hmem)
    simp [hline] at hne

/-! ### Lines of a text and their commands -/

section Compiled

variable {source : String} {n : Nat} {text : List Char}

theorem mem_numberedLines_iff :
    (text, n) ∈ numberedLines source ↔ (Text.lines source)[n]? = some text :=
  List.mk_mem_zipIdx_iff_getElem?

/-- Every command is the block of a line. -/
theorem exists_line_of_mem (h : c ∈ (compile source).commands) :
    ∃ text b, (Text.lines source)[c.line]? = some text ∧ Block.read text = some b ∧
      c.text = b.text ∧ c.fields = b.fieldsOrEmpty := by
  have hmem : (c.line, c.text, c.comment, c.fields) ∈
      (compile source).commands.toList.map (fun c => (c.line, c.text, c.comment, c.fields)) :=
    List.mem_map_of_mem (Array.mem_toList_iff.mpr h)
  rw [commands_compile, List.mem_filterMap] at hmem
  obtain ⟨⟨text, number⟩, hl, hblock⟩ := hmem
  obtain ⟨b, hread, heq⟩ := Option.map_eq_some_iff.mp hblock
  simp only [Prod.mk.injEq] at heq
  obtain ⟨rfl, htext, -, hfields⟩ := heq
  exact ⟨text, b, mem_numberedLines_iff.mp hl, hread, htext.symm, hfields.symm⟩

/-- Every line that is not blank has a command. -/
theorem exists_command_of_line (hline : (Text.lines source)[n]? = some text)
    (hne : Text.trim text ≠ []) : ∃ c ∈ (compile source).commands, c.line = n := by
  obtain ⟨b, hread⟩ := Option.ne_none_iff_exists'.mp (mt Block.read_eq_none_iff.mp hne)
  have hmem : (n, b.text, b.comment, b.fieldsOrEmpty) ∈
      (compile source).commands.toList.map (fun c => (c.line, c.text, c.comment, c.fields)) := by
    rw [commands_compile]
    refine List.mem_filterMap.mpr ⟨(text, n), mem_numberedLines_iff.mpr hline, ?_⟩
    simp only [hread, Option.map_some]
  obtain ⟨c, hc, heq⟩ := List.mem_map.mp hmem
  exact ⟨c, Array.mem_toList_iff.mp hc, congrArg Prod.fst heq⟩

/-- There is a command on exactly those lines that are not blank. -/
theorem isSome_commandAt?_iff :
    ((compile source).commandAt? n).isSome = true ↔
      ∃ text, (Text.lines source)[n]? = some text ∧ Text.trim text ≠ [] := by
  rw [Option.isSome_iff_exists]
  constructor
  · rintro ⟨c, hc⟩
    obtain ⟨hmem, rfl⟩ := mem_of_search hc
    obtain ⟨text, b, hline, hread, -⟩ := exists_line_of_mem hmem
    refine ⟨text, hline, fun hblank => ?_⟩
    rw [Block.read_eq_none_iff.mpr hblank] at hread
    cases hread
  · rintro ⟨text, hline, hne⟩
    obtain ⟨c, hmem, hc⟩ := exists_command_of_line hline hne
    exact ⟨c, (commandAt?_eq_some_iff (lines_increasing source)).mpr ⟨hmem, hc⟩⟩

/-! ### Points and their commands -/

theorem mem_moves_of_point? {p : Program} {index : Nat} {t : ToolPoint} (hindex : 1 ≤ index)
    (h : p.point? index = some t) : t ∈ p.moves := by
  obtain ⟨index, rfl⟩ := Nat.exists_eq_add_of_le' hindex
  rw [point?, ← Array.getElem?_toList, ← List.getElem?_tail] at h
  exact List.mem_of_getElem? h

/-- The command found for a point after the start is one that moves. -/
theorem exists_commandAt?_of_point? {index : Nat} {t : ToolPoint} (hindex : 1 ≤ index)
    (h : (compile source).point? index = some t) :
    ∃ c ∈ (compile source).commands,
      (compile source).commandAt? t.line = some c ∧ c.line = t.line ∧ c.hasAxis = true := by
  obtain ⟨c, hmem, hline, haxis, -⟩ := sender_of_mem (mem_moves_of_point? hindex h)
  exact ⟨c, hmem, (commandAt?_eq_some_iff (lines_increasing source)).mpr ⟨hmem, hline⟩, hline,
    haxis⟩

/-- Every point after the start has a command that sends the tool there. -/
theorem isSome_commandOf? {index : Nat} (hindex : 1 ≤ index)
    (hsize : index < (compile source).size) : ((compile source).commandOf? index).isSome = true := by
  obtain ⟨t, ht⟩ : ∃ t, (compile source).point? index = some t :=
    ⟨_, Array.getElem?_eq_getElem hsize⟩
  obtain ⟨c, -, hc, -⟩ := exists_commandAt?_of_point? hindex ht
  rw [commandOf?, ht, Option.bind_some, hc, Option.isSome_some]

theorem commandOf?_eq_none {p : Program} {index : Nat} (h : p.size ≤ index) :
    p.commandOf? index = none := by
  rw [commandOf?, point?, Array.getElem?_eq_none h, Option.bind_none]

end Compiled

/-- The commands of a program can be found by the lines of a text and by the points they send the
tool to. -/
structure Retrieves (source : String) (p : Program) : Prop where
  /-- The lookup is a search through all commands from the first. -/
  first : ∀ line, p.commandAt? line = p.commands.toList.find? (·.line == line)
  found : ∀ line, (p.commandAt? line).isSome = true ↔
    ∃ text, (Text.lines source)[line]? = some text ∧ Text.trim text ≠ []
  sender : ∀ index, 1 ≤ index → index < p.size → (p.commandOf? index).isSome = true
  beyond : ∀ index, p.size ≤ index → p.commandOf? index = none

/-- In every compiled text a command is found for exactly the lines that are not blank, and for
every point of the toolpath after its start. -/
theorem compile_retrieves (source : String) : Retrieves source (compile source) where
  first := commandAt?_eq_find? (lines_increasing source)
  found _ := isSome_commandAt?_iff
  sender _ := isSome_commandOf?
  beyond _ := commandOf?_eq_none

end Milling.Program
