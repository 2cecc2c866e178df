import Milling.Proofs.Json.Reader
/-!
Reading back values of JSON with one item or entry a line.

The line breaks and the blanks at the start of lines stand between tokens, so such a text spells the
same tokens as the text on one line, and is read as the same tree (`parse?_pretty`).
-/

namespace Milling.Json

variable {s : List Char} {ts : List Token}

theorem spells_indent (depth : Nat) (h : Spells s ts) : Spells (indent depth ++ s) ts := by
  have hspaces : ∀ k, Spells (List.replicate k ' ' ++ s) ts := by
    intro k
    induction k with
    | zero => exact h
    | succ k ih => exact .blank (by decide) ih
  exact .blank (by decide) (hspaces (2 * depth))

theorem spells_quoted (key : String) (h : Spells s ts) :
    Spells (quoted key ++ s) (.text (some key) :: ts) :=
  .token (.text (some key)) (fun hscalar => absurd hscalar Bool.false_ne_true) h

theorem stops_itemLines (depth : Nat) (items : List Datum) (s : List Char) :
    Stops (itemLines depth items ++ s) := by
  cases items <;> rintro c ⟨⟩ <;> decide

theorem stops_entryLines (depth : Nat) (entries : List (String × Datum)) (s : List Char) :
    Stops (entryLines depth entries ++ s) := by
  cases entries <;> rintro c ⟨⟩ <;> decide

mutual

/-- The tokens of a value, with its lines at any depth. -/
theorem spells_lines {s : List Char} {ts : List Token} (hs : Stops s) (h : Spells s ts) :
    ∀ (depth : Nat) (d : Datum), Spells (lines depth d ++ s) (tokens d ++ ts)
  | _, .list _ [] => .token .openList nofun (.token .closeList nofun h)
  | depth, .list _ (item :: items) => by
    have hitem := spells_lines (stops_itemLines depth items s) (spells_itemLines h depth items)
      (depth + 1) item
    rw [lines, tokens]
    simp only [List.append_assoc, List.cons_append]
    exact .token .openList nofun (spells_indent _ hitem)
  | _, .record [] => .token .openRecord nofun (.token .closeRecord nofun h)
  | depth, .record ((key, value) :: entries) => by
    have hvalue := spells_lines (stops_entryLines depth entries s) (spells_entryLines h depth entries)
      (depth + 1) value
    rw [lines, tokens]
    simp only [List.append_assoc, List.cons_append]
    exact .token .openRecord nofun (spells_indent _ (spells_quoted key
      (.token .colon nofun (.blank (by decide) hvalue))))
  | _, .text value => spells_quoted value h
  | _, .null => .token (.scalar .null) (fun _ => hs) h
  | _, .flag value => .token (.scalar (.flag value)) (fun _ => hs) h
  | _, .whole value => .token (.scalar (.whole value)) (fun _ => hs) h
  | _, .real value => .token (.scalar (.real value)) (fun _ => hs) h
  | _, .unusable => .token (.scalar .unusable) (fun _ => hs) h

/-- The lines of a list spell the tokens after its first item. -/
theorem spells_itemLines {s : List Char} {ts : List Token} (h : Spells s ts) :
    ∀ (depth : Nat) (items : List Datum), Spells (itemLines depth items ++ s) (itemTokens items ++ ts)
  | depth, [] => by
    rw [itemLines, itemTokens, List.append_assoc]
    exact spells_indent _ (.token .closeList nofun h)
  | depth, item :: items => by
    have hitem := spells_lines (stops_itemLines depth items s) (spells_itemLines h depth items)
      (depth + 1) item
    rw [itemLines, itemTokens]
    simp only [List.append_assoc, List.cons_append]
    exact .token .comma nofun (spells_indent _ hitem)

theorem spells_entryLines {s : List Char} {ts : List Token} (h : Spells s ts) :
    ∀ (depth : Nat) (entries : List (String × Datum)),
      Spells (entryLines depth entries ++ s) (entryTokens entries ++ ts)
  | depth, [] => by
    rw [entryLines, entryTokens, List.append_assoc]
    exact spells_indent _ (.token .closeRecord nofun h)
  | depth, (key, value) :: entries => by
    have hvalue := spells_lines (stops_entryLines depth entries s) (spells_entryLines h depth entries)
      (depth + 1) value
    rw [entryLines, entryTokens]
    simp only [List.append_assoc, List.cons_append]
    exact .token .comma nofun (spells_indent _ (spells_quoted key
      (.token .colon nofun (.blank (by decide) hvalue))))

end

end Milling.Json
