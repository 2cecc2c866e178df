import Mathlib.Data.List.Infix
import Milling.Lint.Pattern
import Milling.Proofs.Block.Number
/-!
What the checker looks for, said without saying how it is found.

The code words of a text are the words at all of its positions (`codeWords_eq`), feed rate and
height are the first matches of a language after a letter (`feed?_eq_some_iff`,
`height?_eq_some_iff`), and moves and rapid words are parts of the text (`hasMovement_iff`,
`hasRapidWord_iff`).
-/

namespace Milling.Lint

open Text

/-! ### Code words -/

/-- The word of a letter with digits directly after it at the start of a text, with the letter in
upper case. -/
def wordAt? (upper : Char) : List Char → Option String
  | [] => none
  | c :: rest =>
    if isLetter upper c ∧ rest.takeWhile isDecimalDigit ≠ [] then
      some (String.ofList (upper :: rest.takeWhile isDecimalDigit))
    else none

def wordsOf (upper : Char) (code : List Char) : List String :=
  code.tails.filterMap (wordAt? upper)

theorem wordsOf_cons (upper c : Char) (rest : List Char) :
    wordsOf upper (c :: rest) = (wordAt? upper (c :: rest)).toList ++ wordsOf upper rest := by
  unfold wordsOf
  rw [List.tails_cons, List.filterMap_cons]
  cases wordAt? upper (c :: rest) <;> rfl

/-- A letter is no digit, in neither case. -/
def NoDigit (upper : Char) : Prop :=
  isDecimalDigit upper = false ∧ isDecimalDigit upper.toLower = false

instance (upper : Char) : Decidable (NoDigit upper) := by
  unfold NoDigit; infer_instance

theorem NoDigit.isLetter {upper c : Char} (h : NoDigit upper) (hc : isDecimalDigit c = true) :
    isLetter upper c = false := by
  rw [Lint.isLetter, Bool.or_eq_false_iff, beq_eq_false_iff_ne, beq_eq_false_iff_ne]
  constructor
  · rintro rfl
    exact absurd hc (by simp [h.1])
  · rintro rfl
    exact absurd hc (by simp [h.2])

/-- No word starts at a digit. -/
theorem wordsOf_drop {upper : Char} (h : NoDigit upper) {ds : List Char} (hds : Digits ds)
    (s : List Char) : wordsOf upper (ds ++ s) = wordsOf upper s := by
  refine filterMap_tails_append (fun d hd rest => ?_) s
  have hletter : isLetter upper d = false := h.isLetter (hds d hd)
  simp [wordAt?, hletter]

theorem codeWords_cons_of_none {upper c : Char} {rest : List Char}
    (h : wordAt? upper (c :: rest) = none) :
    codeWords upper (c :: rest) = codeWords upper rest := by
  rw [codeWords]
  by_cases hletter : isLetter upper c
  · have hempty : rest.takeWhile isDecimalDigit = [] := by simpa [wordAt?, hletter] using h
    simp [hempty]
  · simp [hletter]

/-- After a word the scanner goes on behind its digits. -/
theorem codeWords_cons_of_some {upper c : Char} {rest : List Char} {word : String}
    (h : wordAt? upper (c :: rest) = some word) :
    codeWords upper (c :: rest) =
      word :: codeWords upper (rest.drop (rest.takeWhile isDecimalDigit).length) := by
  rw [wordAt?] at h
  split at h
  · rename_i hword
    obtain rfl := Option.some.inj h
    rw [codeWords]
    simp only [hword.1, if_true, List.isEmpty_eq_false_iff.mpr hword.2]
    rfl
  · cases h

/-- The words are found one after the other, but as a word has no letter but its first, none is
passed over. -/
theorem codeWords_eq {upper : Char} (h : NoDigit upper) (code : List Char) :
    codeWords upper code = wordsOf upper code := by
  -- After a word the search goes on behind its digits, so the induction is on the length.
  induction hlength : code.length using Nat.strong_induction_on generalizing code with
  | h n ih =>
    cases code with
    | nil => simp [codeWords, wordsOf, wordAt?]
    | cons c rest =>
      rw [List.length_cons] at hlength
      cases hword : wordAt? upper (c :: rest) with
      | none =>
        rw [codeWords_cons_of_none hword, wordsOf_cons, hword, ih rest.length (by omega) rest rfl]
        rfl
      | some word =>
        have hrest : wordsOf upper rest =
            wordsOf upper (rest.drop (rest.takeWhile isDecimalDigit).length) := by
          obtain ⟨later, hlater⟩ := List.takeWhile_prefix isDecimalDigit (l := rest)
          calc wordsOf upper rest = wordsOf upper (rest.takeWhile isDecimalDigit ++ later) := by
                rw [hlater]
            _ = wordsOf upper later := wordsOf_drop h (digits_takeWhile rest) later
            _ = wordsOf upper ((rest.takeWhile isDecimalDigit ++ later).drop
                  (rest.takeWhile isDecimalDigit).length) := by rw [List.drop_left]
            _ = wordsOf upper (rest.drop (rest.takeWhile isDecimalDigit).length) := by rw [hlater]
        rw [codeWords_cons_of_some hword, wordsOf_cons, hword, hrest,
          ih _ (by rw [List.length_drop]; omega) _ rfl]
        rfl

example : wordsOf 'G' "g1G02X5 G".toList = ["G1", "G02"] := by decide

/-! ### Numbers -/

/-- A feed rate has a digit, and one after its point if it has a point. -/
def IsFeed : List Char → Prop :=
  Block.IsDecimal fun _ fs => fs ≠ []

/-- The reader of feed rates finds the longest one. -/
theorem finds_feedAt? : Finds feedAt? IsFeed := by
  refine Block.finds_decimal ?_ ?_ ?_
  · intro ds fs gs hstart hpoint
    exact Block.ne_nil_of_isPrefix hstart hpoint
  · intro s rest hrest hpoint
    simp [feedAt?, hrest, List.isEmpty_eq_false_iff.mpr hpoint]
  · intro s hnone
    unfold feedAt?
    split
    · rename_i rest hrest
      have := hnone rest hrest
      simp only [not_not] at this
      simp [this]
    · simp

/-- What is found directly after a letter is what stands after the first one that has it there. -/
theorem firstAfter_eq_some_iff {upper : Char} {scan : List Char → Option (List Char)}
    {language : List Char → Prop} (h : Finds scan language) {code w : List Char} :
    firstAfter upper scan code = some w ↔ FirstMatch (isLetter upper) language code w := by
  induction code with
  | nil =>
    constructor
    · intro h
      cases h
    · intro h
      cases h
  | cons c rest ih =>
    rw [firstAfter]
    split
    · rename_i hletter
      cases hscan : scan rest with
      | some v =>
        have hlongest : Longest language rest v := h.some hscan
        constructor
        · intro hv
          obtain rfl := Option.some.inj hv
          exact .here hletter hlongest
        · intro hw
          exact congrArg some ((FirstMatch.here hletter hlongest).unique hw)
      | none =>
        constructor
        · intro hw
          exact .later (fun _ => h.none hscan) (ih.mp hw)
        · intro hw
          cases hw with
          | here _ hlongest => exact absurd hlongest.isPrefix (h.none hscan w hlongest.mem)
          | later _ hw => exact ih.mpr hw
    · rename_i hletter
      constructor
      · intro hw
        exact .later (fun hc => absurd hc hletter) (ih.mp hw)
      · intro hw
        cases hw with
        | here hc _ => exact absurd hc hletter
        | later _ hw => exact ih.mpr hw

/-- The first feed rate can be read and has this value. -/
def FeedWord (code : List Char) (value : Float) : Prop :=
  ∃ w, FirstMatch (isLetter 'F') IsFeed code w ∧ Block.numberValue w = some value

/-- The first height can be read and has this value. -/
def HeightWord (code : List Char) (value : Float) : Prop :=
  ∃ w, FirstMatch (isLetter 'Z') Block.IsNumber code w ∧ Block.numberValue w = some value

theorem feed?_eq_some_iff {code : List Char} {value : Float} :
    feed? code = some value ↔ FeedWord code value := by
  simp only [feed?, FeedWord, Option.bind_eq_some_iff, firstAfter_eq_some_iff finds_feedAt?]

theorem height?_eq_some_iff {code : List Char} {value : Float} :
    height? code = some value ↔ HeightWord code value := by
  simp only [height?, HeightWord, Option.bind_eq_some_iff,
    firstAfter_eq_some_iff Block.finds_numberAt?]

/-! ### Parts of a text -/

/-- A character of some kind is part of a text, and what comes after it starts in some way. -/
def HasPart (kind : Char → Prop) (start : List Char → Prop) (code : List Char) : Prop :=
  ∃ before c after, code = before ++ c :: after ∧ kind c ∧ start after

theorem not_hasPart_nil {kind : Char → Prop} {start : List Char → Prop} :
    ¬ HasPart kind start [] := by
  rintro ⟨before, c, after, h, -⟩
  exact List.cons_ne_nil c after (List.append_eq_nil_iff.mp h.symm).2

theorem hasPart_cons {kind : Char → Prop} {start : List Char → Prop} {c : Char}
    {rest : List Char} :
    HasPart kind start (c :: rest) ↔ (kind c ∧ start rest) ∨ HasPart kind start rest := by
  constructor
  · rintro ⟨before, d, after, h, hkind, hstart⟩
    cases before with
    | nil =>
      obtain ⟨rfl, rfl⟩ := List.cons.inj h
      exact .inl ⟨hkind, hstart⟩
    | cons b before => exact .inr ⟨before, d, after, (List.cons.inj h).2, hkind, hstart⟩
  · rintro (⟨hkind, hstart⟩ | ⟨before, d, after, rfl, hkind, hstart⟩)
    · exact ⟨[], c, rest, rfl, hkind, hstart⟩
    · exact ⟨c :: before, d, after, rfl, hkind, hstart⟩

def IsAxis (c : Char) : Prop :=
  isLetter 'X' c = true ∨ isLetter 'Y' c = true ∨ isLetter 'Z' c = true

/-- A text starts with a minus sign, a point or a digit. -/
def StartsNumber (s : List Char) : Prop :=
  ∃ d after, s = d :: after ∧ (d = '-' ∨ d = '.' ∨ isDecimalDigit d = true)

/-- An axis letter with a part of a number after it is part of a text. -/
def HasAxisWord : List Char → Prop :=
  HasPart IsAxis StartsNumber

theorem hasMovement_cons {c : Char} {rest : List Char} :
    hasMovement (c :: rest) = true ↔
      (IsAxis c ∧ StartsNumber rest) ∨ hasMovement rest = true := by
  cases rest with
  | nil => simp [hasMovement, StartsNumber]
  | cons d after => simp [hasMovement, IsAxis, StartsNumber, or_assoc]

/-- Movement is seen exactly where an axis letter has a part of a number after it. -/
theorem hasMovement_iff {code : List Char} : hasMovement code = true ↔ HasAxisWord code := by
  induction code with
  | nil => exact iff_of_false Bool.false_ne_true not_hasPart_nil
  | cons c rest ih => rw [HasAxisWord, hasPart_cons, ← HasAxisWord, ← ih, hasMovement_cons]

/-- A text starts with at most two zeros and a blank after them. -/
def StartsRapid (s : List Char) : Prop :=
  ∃ zeros blank after, s = zeros ++ blank :: after ∧ zeros ∈ [[], ['0'], ['0', '0']] ∧
    isBlank blank = true

theorem zerosThenBlank_cons {c : Char} (h : c ≠ '0') (s : List Char) :
    zerosThenBlank (c :: s) = isBlank c := by
  unfold zerosThenBlank
  split
  · rename_i heq
    exact absurd (List.cons.inj heq).1 h
  · rename_i heq
    exact absurd (List.cons.inj heq).1 h
  · rename_i heq
    rw [(List.cons.inj heq).1]
  · rename_i heq
    cases heq

theorem zerosThenBlank_zero {c : Char} (h : c ≠ '0') (s : List Char) :
    zerosThenBlank ('0' :: c :: s) = isBlank c := by
  unfold zerosThenBlank
  split
  · rename_i heq
    exact absurd (List.cons.inj (List.cons.inj heq).2).1 h
  · rename_i heq
    rw [(List.cons.inj (List.cons.inj heq).2).1]
  · rename_i hother heq
    obtain ⟨rfl, rfl⟩ := List.cons.inj heq
    exact (hother _ _ rfl rfl).elim
  · rename_i heq
    cases heq

/-- At most two zeros and a blank are seen exactly where a text starts with them. -/
theorem zerosThenBlank_iff {s : List Char} : zerosThenBlank s = true ↔ StartsRapid s := by
  have hzero : isBlank '0' = false := by decide
  constructor
  · intro h
    unfold zerosThenBlank at h
    split at h
    · rename_i c after
      exact ⟨['0', '0'], c, after, rfl, by simp, h⟩
    · rename_i c after _
      exact ⟨['0'], c, after, rfl, by simp, h⟩
    · rename_i c after _ _
      exact ⟨[], c, after, rfl, by simp, h⟩
    · cases h
  · rintro ⟨zeros, blank, after, rfl, hzeros, hblank⟩
    have hne : blank ≠ '0' := by
      rintro rfl
      rw [hzero] at hblank
      cases hblank
    simp only [List.mem_cons, List.not_mem_nil, or_false] at hzeros
    rcases hzeros with rfl | rfl | rfl
    · exact (zerosThenBlank_cons hne after).trans hblank
    · exact (zerosThenBlank_zero hne after).trans hblank
    · exact hblank

/-- The letter G with at most two zeros and a blank after it is part of a text. -/
def HasRapidWord : List Char → Prop :=
  HasPart (isLetter 'G' · = true) StartsRapid

/-- The rapid word is seen exactly where it is part of the code. -/
theorem hasRapidWord_iff {code : List Char} : hasRapidWord code = true ↔ HasRapidWord code := by
  induction code with
  | nil => exact iff_of_false Bool.false_ne_true not_hasPart_nil
  | cons c rest ih =>
    rw [HasRapidWord, hasPart_cons, ← HasRapidWord, ← ih, ← zerosThenBlank_iff, hasRapidWord,
      Bool.or_eq_true, Bool.and_eq_true]

end Milling.Lint
