import Milling.Block.Reading
import Milling.Proofs.Block.Number
import Milling.Proofs.Text.LetterCase
/-!
Blocks in lower case.

Comments are found by characters that are no letters, numbers hold none, and addresses are taken in
either case. So a block in lower case has the same fields, and its text and its comment are in lower
case (`read_lower`).
-/

namespace Milling.Block

open Text

/-! ### Comments -/

theorem opensComment_lower (c : Char) (rest : List Char) :
    opensComment c.toLower (lower rest) = opensComment c rest := by
  unfold opensComment
  rw [Uncased.beq_toLower (d := '(') (by decide), Uncased.contains_lower (d := ')') (by decide)]

theorem startsTail_lower (c : Char) (rest : List Char) :
    startsTail c.toLower (lower rest) = startsTail c rest := by
  unfold startsTail
  rw [Uncased.beq_toLower (d := ';') (by decide), Uncased.contains_lower (d := '\n') (by decide)]

theorem ignoresCase_ne_close : IgnoresCase (· != ')') :=
  Uncased.ignoresCase_bne (by decide)

/-- A comment is found at the same place in either case. -/
theorem comment?_lower (s : List Char) : comment? (lower s) = (comment? s).map lower := by
  induction s with
  | nil => rfl
  | cons c rest ih =>
    rw [lower_cons, comment?, comment?, opensComment_lower, startsTail_lower, ih,
      takeWhile_lower ignoresCase_ne_close]
    split
    · rfl
    · split <;> rfl

theorem withoutParens_lower (s : List Char) :
    withoutParens (lower s) = lower (withoutParens s) := by
  induction s using withoutParens.induct with
  | case1 => simp [withoutParens]
  | case2 c rest hopens ih =>
    rw [lower_cons, withoutParens, opensComment_lower, if_pos hopens,
      dropWhile_lower ignoresCase_ne_close, withoutParens.eq_def (c :: rest)]
    simp only [if_pos hopens]
    rw [← ih, lower, lower, List.map_tail]
  | case3 c rest hopens ih =>
    rw [lower_cons, withoutParens, opensComment_lower, if_neg hopens, ih,
      withoutParens.eq_def (c :: rest)]
    simp only [if_neg hopens, lower_cons]

theorem withoutTail_lower (s : List Char) : withoutTail (lower s) = lower (withoutTail s) := by
  induction s with
  | nil => rfl
  | cons c rest ih =>
    rw [lower_cons, withoutTail, withoutTail, startsTail_lower, ih]
    split <;> rfl

theorem code_lower (s : List Char) : code (lower s) = lower (code s) := by
  unfold code
  rw [withoutParens_lower, withoutTail_lower, trim_lower]

/-! ### Words -/

theorem uncased_of_isDecimal {point : List Char → List Char → Prop} {w : List Char}
    (h : IsDecimal point w) : ∀ c ∈ w, Uncased c := by
  intro c hc
  rcases h.eq_or_of_mem hc with rfl | hdigit
  · decide
  · exact uncased_of_isDecimalDigit hdigit

/-- There are no letters in a number. -/
theorem uncased_of_isNumber {w : List Char} (h : IsNumber w) : ∀ c ∈ w, Uncased c := by
  intro c hc
  rcases h.eq_or_of_mem hc with rfl | rfl | hdigit
  · decide
  · decide
  · exact uncased_of_isDecimalDigit hdigit

theorem numberAt?_lower (s : List Char) : numberAt? (lower s) = numberAt? s :=
  finds_numberAt?.lower (fun _ h => uncased_of_isNumber h) s

theorem ignoresCase_ofChar? : IgnoresCase Letter.ofChar? :=
  ignoresCase_iff.mpr (by decide)

theorem ignoresCase_isAddress : IgnoresCase isAddress :=
  ignoresCase_iff.mpr (by decide)

def Word.lower (w : Word) : Word :=
  ⟨w.address.toLower, w.number⟩

theorem fills_lower (w : Word) (l : Letter) : w.lower.fills l = w.fills l := by
  unfold Word.fills Word.lower
  rw [ignoresCase_ofChar? w.address]

/-- The same words are found in either case, but for the case of their letters. -/
theorem words_lower (s : List Char) : words (Text.lower s) = (words s).map Word.lower := by
  induction s using words.induct with
  | case1 => simp [words]
  | case2 c rest haddress number hnumber ih =>
    rw [lower_cons, words, words, ignoresCase_isAddress c, if_pos haddress, if_pos haddress,
      numberAt?_lower, hnumber]
    simp only [lower_drop, ih, List.map_cons]
    rfl
  | case3 c rest haddress hnumber ih =>
    rw [lower_cons, words, words, ignoresCase_isAddress c, if_pos haddress, if_pos haddress,
      numberAt?_lower, hnumber]
    exact ih
  | case4 c rest haddress ih =>
    rw [lower_cons, words, words, ignoresCase_isAddress c, if_neg haddress, if_neg haddress]
    exact ih

theorem field_lower (ws : List Word) (l : Letter) : field (ws.map Word.lower) l = field ws l := by
  unfold field
  rw [List.filter_map, List.findSome?_map]
  have hfills : (fun w : Word => w.fills l) ∘ Word.lower = fun w => w.fills l :=
    funext fun w => fills_lower w l
  rw [hfills]
  rfl

theorem codeDigits?_lower (s : List Char) : codeDigits? (Text.lower s) = codeDigits? s := by
  induction s with
  | nil => rfl
  | cons c rest ih =>
    have hfolds : IgnoresCase fun c => c == 'G' || c == 'g' := ignoresCase_iff.mpr (by decide)
    have hletter : (c.toLower == 'G' || c.toLower == 'g') = (c == 'G' || c == 'g') := hfolds c
    rw [lower_cons, codeDigits?, codeDigits?, takeWhile_isDecimalDigit_lower, ih, hletter]

/-- The numbers of a block do not depend on the case of its letters. -/
theorem readFields_lower (s : List Char) : readFields (Text.lower s) = readFields s := by
  unfold readFields codeNumber?
  simp only [words_lower, field_lower, codeDigits?_lower]

/-! ### Blocks -/

def lower (b : Block) : Block :=
  { b with text := b.text.toLower, comment := b.comment.map String.toLower }

theorem ofList_lower (s : List Char) :
    String.ofList (Text.lower s) = (String.ofList s).toLower := by
  rw [← String.toList_inj, toList_toLower, String.toList_ofList, String.toList_ofList]

theorem isEmpty_lower (s : List Char) : (Text.lower s).isEmpty = s.isEmpty := by
  cases s <;> rfl

/-- A line in lower case is read as the same block with its texts in lower case. -/
theorem read_lower (s : List Char) : read (Text.lower s) = (read s).map lower := by
  unfold read
  simp only [trim_lower, code_lower, comment?_lower, isEmpty_lower, readFields_lower]
  split
  · rfl
  · simp only [Option.map_some, lower, ofList_lower, Option.map_map, Function.comp_def]

end Milling.Block
