import Milling.Proofs.Json.Number
/-!
Reading back the tokens of JSON.

A text *spells* tokens if it consists of them, with blanks between them at will. The reader finds
the tokens that a text spells, with the numbers as they are carried (`tokens?_of_spells`).
-/

namespace Milling.Json

open Decimal

/-! ### Strings -/

theorem hexValue?_control : ∀ n : Fin 32,
    Text.hexValue? ['0', '0', Nat.digitChar (n / 16), Nat.digitChar (n % 16)] = some n.val := by
  decide

/-- An escaped character stands for its code point. -/
theorem spanCodes_escape (seen : List Nat) (c : Char) (rest : List Char) :
    spanCodes seen (escape c ++ rest) = spanCodes (c.toNat :: seen) rest := by
  unfold escape
  split
  iterate 7 rfl
  rename_i hquote hbackslash _ _ _ _ _
  split
  · rename_i hcontrol
    have hhex := hexValue?_control ⟨c.toNat, hcontrol⟩
    simp only [List.cons_append, List.nil_append, spanCodes, hhex]
  · rename_i hplain
    rw [List.singleton_append, spanCodes]
    · rw [if_neg (by simpa using ⟨Nat.not_lt.mp hplain, hbackslash⟩)]
    · exact hquote
    · intro _ _ _ _ _ h
      exact absurd h hbackslash
    · intro _ _ h
      exact absurd h hbackslash

/-- A string is read back to its code points, with its escapes undone. -/
theorem spanCodes_quoted (seen : List Nat) (s rest : List Char) :
    spanCodes seen (s.flatMap escape ++ '"' :: rest) =
      some (seen.reverse ++ s.map Char.toNat, rest) := by
  induction s generalizing seen with
  | nil => simp [spanCodes]
  | cons c s ih =>
    rw [List.flatMap_cons, List.append_assoc, spanCodes_escape, ih]
    simp

/-- A character is no surrogate. -/
theorem isSurrogate_toNat (c : Char) : (isHigh c.toNat || isLow c.toNat) = false := by
  have hvalid : c.toNat.isValidChar := c.valid
  unfold isHigh isLow
  unfold Nat.isValidChar at hvalid
  simp
  omega

/-- Code points of characters are joined to these characters, since none of them is a surrogate. -/
theorem joined_toNat (seen s : List Char) :
    joined seen (s.map Char.toNat) = some (seen.reverse ++ s) := by
  induction s generalizing seen with
  | nil => simp [joined]
  | cons c s ih =>
    obtain ⟨hhigh, hlow⟩ := Bool.or_eq_false_iff.mp (isSurrogate_toNat c)
    cases s with
    | nil =>
      rw [List.map_cons, List.map_nil, joined, hhigh, hlow, Char.ofNat_toNat, List.reverse_cons]
      rfl
    | cons d s =>
      rw [List.map_cons, List.map_cons, joined, hhigh, hlow, Char.ofNat_toNat, if_neg (by simp),
        if_neg (by simp), ← List.map_cons, ih, List.reverse_cons, List.append_assoc]
      rfl

/-! ### Single tokens -/

/-- What the text of a number, a truth value or null is read as. -/
def rereadScalar : Datum → Datum
  | .flag value => .flag value
  | .whole value => whole (value < 0) (text value.natAbs)
  | .real value => if value.isFinite then .real (carried value) else .null
  | _ => .null

namespace Token

/-- What the text of a token is read as. -/
def reread : Token → Token
  | text value => text (some (value.getD ""))
  | scalar value => scalar (rereadScalar value)
  | other => other

/-- A number, a truth value or null: the tokens whose ends the text does not mark. -/
def isScalar : Token → Bool
  | scalar _ => true
  | _ => false

end Token

/-- The characters that start the other tokens. -/
def marks : List Char :=
  ['\x7b', '\x7d', '[', ']', ':', ',', '"', 'n', 't', 'f']

/-- A text that starts as no other token does is read as a number. -/
theorem spanToken_number {c : Char} {s : List Char} (hc : c ∉ marks) :
    spanToken (c :: s) = (spanNumber (c :: s)).map fun (number, rest) => (.scalar number, rest) := by
  have hne : ∀ d ∈ marks, c ≠ d := by
    rintro d hd rfl
    exact hc hd
  unfold spanToken
  split
  iterate 10
    rename_i heq
    exact absurd (List.cons_eq_cons.mp heq).1 (hne _ (by decide))
  rfl

theorem not_mem_marks {c : Char} (hc : c.isDigit = true ∨ c = '-') : c ∉ marks := by
  intro hmem
  have hmarks : (marks.all fun d => !d.isDigit && d != '-') = true := by decide
  have hother := List.all_eq_true.mp hmarks c hmem
  rcases hc with h | rfl
  · rw [h] at hother
    cases hother
  · cases hother

variable {rest : List Char}

/-- The digits of an integer are a literal of their own. -/
theorem isProper_text (n : Nat) : (⟨text n, [], none⟩ : Literal).IsProper where
  whole := digits_text n
  whole_ne_nil := text_ne_nil n
  head := by
    intro c s h
    rcases Nat.eq_zero_or_pos n with rfl | hn
    · cases h
    · exact head_text_ne_zero hn h rfl
  fraction := by rintro c ⟨⟩

/-- An integer is read up to where its digits stop. -/
theorem spanNumber_whole (value : Int) (hrest : Stops rest) :
    spanNumber (scalar (.whole value) ++ rest) = some (rereadScalar (.whole value), rest) := by
  have hspan := spanNumber_chars (isProper_text value.natAbs) (value < 0) hrest
  have hchars : (⟨text value.natAbs, [], none⟩ : Literal).chars = text value.natAbs := by
    rw [Literal.chars, Literal.tail, if_pos rfl, Option.elim_none, List.append_nil, List.append_nil]
  have hscalar : scalar (.whole value) =
      (if decide (value < 0) then ['-'] else []) ++ text value.natAbs := by
    change (if value < 0 then '-' :: text value.natAbs else text value.natAbs) = _
    by_cases hneg : value < 0 <;> simp [hneg]
  rw [hchars, ← List.append_assoc, ← hscalar] at hspan
  exact hspan

/-- A number starts with a digit or a sign. -/
theorem head_of_spanNumber {c : Char} {s : List Char} {read : Datum × List Char}
    (h : spanNumber (c :: s) = some read) : c.isDigit = true ∨ c = '-' := by
  by_contra hnot
  rw [not_or, Bool.not_eq_true] at hnot
  have hminus : ((c :: s).head? == some '-') = false :=
    beq_eq_false_iff_ne.mpr fun heq => hnot.2 (Option.some_inj.mp heq)
  have hspan : spanAscii (c :: s) = ([], c :: s) := by
    unfold spanAscii
    rw [List.takeWhile_cons_of_neg (by simp [hnot.1]),
      List.dropWhile_cons_of_neg (by simp [hnot.1])]
  unfold spanNumber at h
  rw [hminus] at h
  simp [hspan] at h

theorem spanToken_of_spanNumber {s : List Char} {number : Datum}
    (h : spanNumber s = some (number, rest)) : spanToken s = some (.scalar number, rest) := by
  cases s with
  | nil => cases h
  | cons c s =>
    rw [spanToken_number (not_mem_marks (head_of_spanNumber h)), h]
    rfl

theorem spanToken_null : spanToken ("null".toList ++ rest) = some (.scalar .null, rest) := by
  have hword : "null".toList = ['n', 'u', 'l', 'l'] := by decide
  rw [hword]
  rfl

theorem spanToken_flag (value : Bool) :
    spanToken (scalar (.flag value) ++ rest) = some (.scalar (.flag value), rest) := by
  have htrue : "true".toList = ['t', 'r', 'u', 'e'] := by decide
  have hfalse : "false".toList = ['f', 'a', 'l', 's', 'e'] := by decide
  cases value with
  | true =>
    change spanToken ("true".toList ++ rest) = _
    rw [htrue]
    rfl
  | false =>
    change spanToken ("false".toList ++ rest) = _
    rw [hfalse]
    rfl

/-- A number, a truth value or null is read back as one token. -/
theorem spanToken_scalar (value : Datum) (hrest : Stops rest) :
    spanToken (scalar value ++ rest) = some (.scalar (rereadScalar value), rest) := by
  cases value with
  | flag value => exact spanToken_flag value
  | whole value => exact spanToken_of_spanNumber (spanNumber_whole value hrest)
  | real value =>
    change spanToken ((if value.isFinite then (numberLayout.write value).toList
      else "null".toList) ++ rest) =
        some (.scalar (if value.isFinite then .real (carried value) else .null), rest)
    split
    · rename_i hfinite
      exact spanToken_of_spanNumber (spanNumber_write hfinite hrest)
    · exact spanToken_null
  | _ => exact spanToken_null

/-- A token is read back where its text stands. -/
theorem spanToken_chars (t : Token) (hrest : t.isScalar = true → Stops rest) :
    spanToken (t.chars ++ rest) = some (t.reread, rest) := by
  cases t with
  | text value =>
    have hcodes := spanCodes_quoted [] (value.getD "").toList rest
    have hjoined := joined_toNat [] (value.getD "").toList
    rw [List.reverse_nil, List.nil_append] at hcodes hjoined
    rw [Token.chars, quoted, List.cons_append, List.append_assoc, List.singleton_append, spanToken,
      hcodes, Option.map_some]
    dsimp only
    rw [hjoined, Option.map_some, String.ofList_toList]
    rfl
  | scalar value => exact spanToken_scalar value (hrest rfl)
  | _ => rfl

/-! ### Texts of tokens -/

/-- The text consists of the tokens, with blanks between them at will. -/
inductive Spells : List Char → List Token → Prop
  | nil : Spells [] []
  | blank {c : Char} {s : List Char} {ts : List Token} :
      isBlank c = true → Spells s ts → Spells (c :: s) ts
  | token (t : Token) {s : List Char} {ts : List Token} :
      (t.isScalar = true → Stops s) → Spells s ts → Spells (t.chars ++ s) (t :: ts)

/-- The text of a token is not empty and starts with no blank. -/
theorem exists_chars_eq (t : Token) : ∃ c s, t.chars = c :: s ∧ isBlank c = false := by
  have hspan : spanToken (t.chars ++ []) = some (t.reread, []) :=
    spanToken_chars t fun _ => stops_nil
  rw [List.append_nil] at hspan
  cases hchars : t.chars with
  | nil =>
    rw [hchars] at hspan
    cases hspan
  | cons c s =>
    refine ⟨c, s, rfl, ?_⟩
    by_contra hblank
    have hnot : c ∉ marks ∧ ¬ (c.isDigit = true ∨ c = '-') := by
      simp only [isBlank, Bool.not_eq_false, Bool.or_eq_true, beq_iff_eq] at hblank
      rcases hblank with ((rfl | rfl) | rfl) | rfl <;> decide
    rw [hchars, spanToken_number hnot.1] at hspan
    obtain ⟨read, hread, -⟩ := Option.map_eq_some_iff.mp hspan
    exact hnot.2 (head_of_spanNumber hread)

theorem length_le_of_spells {s : List Char} {ts : List Token} (h : Spells s ts) :
    ts.length ≤ s.length := by
  induction h with
  | nil => exact Nat.le_refl _
  | blank _ _ ih => exact ih.trans (Nat.le_succ _)
  | token t _ _ ih =>
    obtain ⟨c, cs, hchars, -⟩ := exists_chars_eq t
    rw [hchars, List.cons_append, List.length_cons, List.length_cons, List.length_append]
    omega

/-- A text that spells some tokens is taken apart into these. -/
theorem spanTokens_of_spells {s : List Char} {ts : List Token} (h : Spells s ts)
    (seen : List Token) {budget : Nat} (hbudget : ts.length ≤ budget) :
    spanTokens seen budget s = some (seen.reverse ++ ts.map Token.reread) := by
  induction h generalizing seen budget with
  | nil =>
    rw [spanTokens]
    simp
  | blank hc _ ih =>
    rw [← ih seen hbudget]
    rw [spanTokens, spanTokens, List.dropWhile_cons_of_pos hc]
  | token t hstops _ ih =>
    obtain ⟨c, cs, hchars, hc⟩ := exists_chars_eq t
    obtain ⟨budget, rfl⟩ : ∃ b, budget = b + 1 := ⟨budget - 1, by rw [List.length_cons] at hbudget; omega⟩
    have hspan := spanToken_chars t hstops
    rw [hchars, List.cons_append] at hspan
    rw [hchars, List.cons_append, spanTokens, List.dropWhile_cons_of_neg (by simp [hc])]
    dsimp only
    rw [hspan]
    dsimp only
    rw [ih _ (Nat.le_of_succ_le_succ hbudget), List.reverse_cons, List.append_assoc]
    rfl

/-- The reader finds the tokens that a text spells. -/
theorem tokens?_of_spells {s : List Char} {ts : List Token} (h : Spells s ts) :
    tokens? s = some (ts.map Token.reread) := by
  rw [tokens?, spanTokens_of_spells h [] (length_le_of_spells h)]
  rfl

end Milling.Json
