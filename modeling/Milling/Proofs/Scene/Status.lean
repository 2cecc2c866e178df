import Milling.Proofs.Program.Lookup
import Milling.Proofs.Program.Remark
import Milling.Scene.Status
/-!
The status line of a compiled text.

A point of the toolpath names the line that sends the tool there, and the status line shows the text
of the command found for it. `locates_capture` says that this is the text of that very line, which
has a coordinate, wherever the tool stands after the start. The start itself counts as line 0, which
need not have a command.
-/

namespace Milling.Status

open Program

/-- The status line tells where in a text the tool is, for an index that may be beyond the last. -/
structure Locates (source : String) (index : Nat) (status : Status) : Prop where
  total : status.total = (compile source).size
  index : status.index = min index (status.total - 1)
  point : ∃ t, (compile source).point? status.index = some t ∧
    status.position = t.position ∧ status.kind = t.kind ∧ status.line = t.line
  moved : 1 ≤ status.index → ∃ text, (Text.lines source)[status.line]? = some text ∧
    status.text = some (String.ofList (Text.trim text)) ∧
    (Block.readFields (Block.code text)).hasAxis = true
  atStart : status.index = 0 → status.line = 0 ∧ ∃ text, (Text.lines source)[0]? = some text ∧
    status.text = if Text.trim text = [] then none else some (String.ofList (Text.trim text))

section

variable {source : String} {index : Nat} {t : ToolPoint}

theorem point?_zero (source : String) : (compile source).point? 0 = some .start := by
  rw [point?, ← Array.getElem?_toList, toList_toolpath_compile, List.getElem?_cons_zero]

/-- There is always a point to show. -/
theorem exists_point? (source : String) (index : Nat) :
    ∃ t, (compile source).point? (min index (compile source).lastIndex) = some t := by
  have hpos := size_compile_pos source
  have hlt : min index (compile source).lastIndex < (compile source).size := by
    unfold Program.lastIndex
    omega
  exact ⟨_, Array.getElem?_eq_getElem hlt⟩

/-- The status line shows the point at which the tool stands. -/
theorem capture_of_point? {p : Program} {s : Playback}
    (h : p.point? (min s.index p.lastIndex) = some t) :
    capture p s = ⟨t.position, t.kind, t.line, (p.commandAt? t.line).map (·.text),
      min s.index p.lastIndex, p.size⟩ := by
  rw [capture, h, Option.getD_some]

/-- The text of the command of a line is that of the line. -/
theorem map_text_commandAt? {n : Nat} {text : List Char}
    (hline : (Text.lines source)[n]? = some text) :
    ((compile source).commandAt? n).map (·.text) =
      if Text.trim text = [] then none else some (String.ofList (Text.trim text)) := by
  split
  · rename_i hblank
    have hnone : ¬ ((compile source).commandAt? n).isSome = true := by
      rw [isSome_commandAt?_iff]
      rintro ⟨text', hline', hne⟩
      rw [hline, Option.some_inj] at hline'
      exact hne (hline' ▸ hblank)
    rw [Option.not_isSome_iff_eq_none.mp hnone, Option.map_none]
  · rename_i hne
    obtain ⟨c, hc⟩ := Option.isSome_iff_exists.mp (isSome_commandAt?_iff.mpr ⟨text, hline, hne⟩)
    obtain ⟨hmem, rfl⟩ := mem_of_search hc
    obtain ⟨text', b, hline', hread, htext, -⟩ := exists_line_of_mem hmem
    obtain rfl : text = text' := by rwa [hline, Option.some_inj] at hline'
    rw [hc, Option.map_some, htext, Block.text_of_read hread]

/-- The line of a point after the start has a coordinate. -/
theorem exists_line_of_point? (hindex : 1 ≤ index)
    (h : (compile source).point? index = some t) :
    ∃ text, (Text.lines source)[t.line]? = some text ∧
      ((compile source).commandAt? t.line).map (·.text) = some (String.ofList (Text.trim text)) ∧
      (Block.readFields (Block.code text)).hasAxis = true := by
  obtain ⟨c, hmem, hat, hline, haxis⟩ := exists_commandAt?_of_point? hindex h
  obtain ⟨text, b, htext, hread, hshown, hfields⟩ := exists_line_of_mem hmem
  refine ⟨text, hline ▸ htext, ?_, ?_⟩
  · rw [hat, Option.map_some, hshown, Block.text_of_read hread]
  · have hpart : b.fieldsOrEmpty.hasAxis = true := hfields ▸ haxis
    have hfeed : '\n' ∉ text := Text.not_mem_of_mem_lines (List.mem_of_getElem? htext)
    rw [Block.fieldsOrEmpty, Block.fields_of_read hfeed hread] at hpart
    split at hpart
    · cases hpart
    · exact hpart

end

/-- For every text and whatever index playback has, the status line belongs to the line that sent
the tool to its point. -/
theorem locates_capture (source : String) (s : Playback) :
    Locates source s.index (capture (compile source) s) := by
  obtain ⟨t, ht⟩ := exists_point? source s.index
  rw [capture_of_point? ht]
  exact
    { total := rfl
      index := rfl
      point := ⟨t, ht, rfl, rfl, rfl⟩
      moved := fun hindex => exists_line_of_point? hindex ht
      atStart := by
        intro hindex
        obtain rfl : t = .start := by
          rw [show min s.index (compile source).lastIndex = 0 from hindex, point?_zero] at ht
          exact (Option.some.inj ht).symm
        obtain ⟨first, rest, hlines⟩ := List.exists_cons_of_ne_nil (Text.lines_ne_nil source)
        have hfirst : (Text.lines source)[0]? = some first := by
          rw [hlines, List.getElem?_cons_zero]
        exact ⟨rfl, first, hfirst, map_text_commandAt? hfirst⟩ }

end Milling.Status
