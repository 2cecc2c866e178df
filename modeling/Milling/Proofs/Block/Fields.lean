import Milling.Proofs.Block.Word
import Milling.Proofs.Decimal.Literal
import Milling.Proofs.Text.LetterCase
/-!
What the fields of a block hold.

The pass over a block finds the words at all places of its text, so each letter could as well be
searched for on its own: its field holds the number at the first place where one can be read
(`readFields_foundIn`). A number can be read if and only if its digits are ASCII
(`isSome_numberValue_iff`). The code is read at the first G that has a digit after it, and only
there.
-/

namespace Milling.Block

open Text

/-! ### Readable numbers -/

def AsciiDigits (s : List Char) : Prop :=
  ∀ c ∈ s, isDecimalDigit c = true → c.isDigit = true

section

variable {w : List Char}

/-- Digits of other scripts end a literal, which is why a number with one of them has no value. -/
theorem endsLiteral_of_isDecimalDigit {c : Char} (h : isDecimalDigit c = true)
    (hascii : c.isDigit = false) : Decimal.EndsLiteral c where
  digit := hascii
  point := by rintro rfl; exact absurd h (by decide)
  mark := by constructor <;> rintro rfl <;> exact absurd h (by decide)

/-- Digits are all of ASCII, or there is a first one that is not. -/
theorem digits_or_split (h : Digits w) :
    Decimal.Digits w ∨ ∃ ds c rest, w = ds ++ c :: rest ∧ Decimal.Digits ds ∧
      Decimal.EndsLiteral c ∧ ¬ AsciiDigits w := by
  by_cases hall : Decimal.Digits w
  · exact .inl hall
  · have hne : w.dropWhile Char.isDigit ≠ [] := mt List.dropWhile_eq_nil_iff.mp hall
    obtain ⟨c, rest, hrest⟩ := List.exists_cons_of_ne_nil hne
    have hsplit : w = w.takeWhile Char.isDigit ++ c :: rest := by
      rw [← hrest, List.takeWhile_append_dropWhile]
    have hc : c ∈ w := hsplit ▸ List.mem_append_right _ List.mem_cons_self
    have hascii : c.isDigit = false := by
      have := List.head_dropWhile_not Char.isDigit hne
      simpa [hrest] using this
    refine .inr ⟨_, c, rest, hsplit, fun d hd => List.mem_takeWhile_imp hd,
      endsLiteral_of_isDecimalDigit (h c hc) hascii, fun hw => ?_⟩
    rw [hw c hc (h c hc)] at hascii
    cases hascii

/-- A number can be read exactly if its digits are those of ASCII. -/
theorem isSome_ofText?_iff (h : IsUnsigned w) :
    (Decimal.ofText? w).isSome = true ↔ AsciiDigits w := by
  cases h with
  | whole hne hds =>
    rcases digits_or_split hds with hall | ⟨ds, c, rest, rfl, hascii, hends, hnot⟩
    · exact iff_of_true (Decimal.isSome_ofText?_whole hall hne) fun d hd _ => hall d hd
    · refine iff_of_false ?_ hnot
      rw [Decimal.ofText?_whole_ends hascii hends]
      exact Bool.false_ne_true
  | @point ds fs hpoint hds hfs =>
    have hleft : AsciiDigits (ds ++ '.' :: fs) → AsciiDigits ds := fun hw d hd =>
      hw d (List.mem_append_left _ hd)
    have hright : AsciiDigits (ds ++ '.' :: fs) → AsciiDigits fs := fun hw d hd =>
      hw d (List.mem_append_right _ (List.mem_cons_of_mem _ hd))
    rcases digits_or_split hds with hallds | ⟨as, c, rest, rfl, hascii, hends, hnot⟩
    · rcases digits_or_split hfs with hallfs | ⟨as, c, rest, rfl, hascii, hends, hnot⟩
      · refine iff_of_true (Decimal.isSome_ofText?_point hallds hallfs hpoint) fun d hd hdigit => ?_
        rcases List.mem_append.mp hd with hd | hd
        · exact hallds d hd
        · rcases List.mem_cons.mp hd with rfl | hd
          · exact absurd hdigit (by decide)
          · exact hallfs d hd
      · refine iff_of_false ?_ (hnot ∘ hright)
        rw [Decimal.ofText?_point_ends hallds hascii hends]
        exact Bool.false_ne_true
    · refine iff_of_false ?_ (hnot ∘ hleft)
      rw [List.append_assoc, List.cons_append, Decimal.ofText?_whole_ends hascii hends]
      exact Bool.false_ne_true

/-- A number is no word for infinity or NaN, since it starts with a digit or a point. -/
theorem unsigned?_of_isUnsigned (h : IsUnsigned w) :
    Decimal.unsigned? w = (Decimal.ofText? w).map Decimal.toFloat := by
  obtain ⟨c, rest, rfl⟩ := List.exists_cons_of_ne_nil h.ne_nil
  have hlower : c.toLower = c := by
    rcases h.head with rfl | hdigit
    · rfl
    · exact (uncased_of_isDecimalDigit hdigit).toLower
  have hword : ∀ word : String, word.toList.head? = some 'i' ∨ word.toList.head? = some 'n' →
      (String.ofList ((c :: rest).map Char.toLower) == word) = false := by
    intro word hfirst
    rw [beq_eq_false_iff_ne]
    rintro rfl
    rw [String.toList_ofList, List.map_cons, List.head?_cons, hlower] at hfirst
    rcases hfirst with heq | heq
    · obtain rfl := Option.some.inj heq
      exact absurd h.head (by decide)
    · obtain rfl := Option.some.inj heq
      exact absurd h.head (by decide)
  unfold Decimal.unsigned?
  cases Decimal.ofText? (c :: rest) with
  | some d => rfl
  | none =>
    simp only [hword "inf" (.inl rfl), hword "infinity" (.inl rfl), hword "nan" (.inr rfl)]
    rfl

/-- The number of a word can be read if and only if all its digits are of ASCII. -/
theorem isSome_numberValue_iff (h : IsNumber w) :
    (numberValue w).isSome = true ↔ AsciiDigits w := by
  cases h with
  | plain h =>
    have hvalue : numberValue w = Decimal.unsigned? w := by
      obtain ⟨c, rest, rfl⟩ := List.exists_cons_of_ne_nil h.ne_nil
      unfold numberValue Decimal.float?
      split
      · rename_i heq
        obtain ⟨rfl, rfl⟩ := List.cons.inj heq
        exact absurd h (not_isUnsigned_minus rest)
      · rename_i heq
        obtain ⟨rfl, rfl⟩ := List.cons.inj heq
        exact absurd h.head (by decide)
      · rfl
    rw [hvalue, unsigned?_of_isUnsigned h, Option.isSome_map, isSome_ofText?_iff h]
  | @minus v h =>
    have hascii : AsciiDigits ('-' :: v) ↔ AsciiDigits v := by
      simp [AsciiDigits, show isDecimalDigit '-' = false by decide]
    rw [hascii, ← isSome_ofText?_iff h, numberValue, Decimal.float?, Option.isSome_map,
      unsigned?_of_isUnsigned h, Option.isSome_map]

end

/-! ### Fields -/

/-- A letter in either case stands at the start of a text, with a number directly after it; this is
the longest one. -/
def StandsWithNumber (l : Letter) (s number : List Char) : Prop :=
  ∃ c rest, s = c :: rest ∧ l.IsWritten c ∧ Longest IsNumber rest number

/-- The number after the letter at the start of a text has a value. -/
def StandsWithValue (l : Letter) (s : List Char) (v : Float) : Prop :=
  ∃ number, StandsWithNumber l s number ∧ numberValue number = some v

/-- A G in either case stands at the start of a text, with a digit after it; these are all the
digits after it. -/
def StandsWithDigits (s digits : List Char) : Prop :=
  ∃ c rest, s = c :: rest ∧ (c = 'G' ∨ c = 'g') ∧ Longest Digits rest digits ∧ digits ≠ []

def Fields.number (w : Fields) : Letter → Option Float
  | .x => w.x
  | .y => w.y
  | .z => w.z
  | .f => w.f
  | .i => w.i
  | .j => w.j
  | .k => w.k

/-- Every letter is looked for alone, from the first word. -/
theorem number_readFields (s : List Char) (l : Letter) :
    (readFields s).number l = field (words s) l := by
  cases l <;> rfl

/-- The value of the word at the start of a text, if it is one of the letter. -/
def valueAt? (l : Letter) (s : List Char) : Option Float :=
  ((wordAt? s).filter (·.fills l)).bind fun w => numberValue w.number

/-- A value is found at the start of a text exactly where one stands. -/
theorem valueAt?_eq_some_iff {l : Letter} {s : List Char} {v : Float} :
    valueAt? l s = some v ↔ StandsWithValue l s v := by
  constructor
  · intro h
    obtain ⟨w, hw, hv⟩ := Option.bind_eq_some_iff.mp h
    obtain ⟨hword, hfills⟩ := Option.filter_eq_some_iff.mp hw
    obtain ⟨rest, hs, -, hnumber⟩ := wordAt?_eq_some_iff.mp hword
    exact ⟨w.number, ⟨w.address, rest, hs, ofChar?_eq_some_iff.mp (beq_iff_eq.mp hfills),
      finds_numberAt?.some hnumber⟩, hv⟩
  · rintro ⟨number, ⟨c, rest, hs, hc, hlongest⟩, hv⟩
    have hletter := ofChar?_eq_some_iff.mpr hc
    have hword : wordAt? s = some ⟨c, number⟩ := by
      refine wordAt?_eq_some_iff.mpr ⟨rest, hs, ?_, finds_numberAt?.eq_some_iff.mpr hlongest⟩
      rw [isAddress, hletter]
      rfl
    have hkept : (some (⟨c, number⟩ : Word)).filter (·.fills l) = some ⟨c, number⟩ :=
      Option.filter_some_pos (beq_iff_eq.mpr hletter)
    rw [valueAt?, hword, hkept, Option.bind_some, hv]

/-- The first readable number of a letter is found by going through the places of the text. -/
theorem field_words (s : List Char) (l : Letter) :
    field (words s) l = s.tails.findSome? (valueAt? l) := by
  unfold field
  rw [words_eq, List.filter_filterMap, ← List.head?_filterMap, List.filterMap_filterMap,
    List.head?_filterMap]
  rfl

/-- The digits of the G word at the start of a text. -/
def codeDigitsAt? : List Char → Option (List Char)
  | [] => none
  | c :: rest =>
    if (c = 'G' ∨ c = 'g') ∧ rest.takeWhile isDecimalDigit ≠ [] then
      some (rest.takeWhile isDecimalDigit)
    else none

theorem codeDigits?_eq_findSome? (s : List Char) :
    codeDigits? s = s.tails.findSome? codeDigitsAt? := by
  induction s with
  | nil => rfl
  | cons c rest ih =>
    rw [codeDigits?, List.tails_cons, List.findSome?_cons, codeDigitsAt?, ← ih]
    by_cases hg : c = 'G' ∨ c = 'g'
    · by_cases hempty : rest.takeWhile isDecimalDigit = []
      · simp [hg, hempty]
      · simp [hg, hempty]
    · simp [hg]

theorem codeDigitsAt?_eq_some_iff {s digits : List Char} :
    codeDigitsAt? s = some digits ↔ StandsWithDigits s digits := by
  constructor
  · intro h
    unfold codeDigitsAt? at h
    split at h
    · cases h
    · rename_i c rest
      split_ifs at h with hg
      obtain rfl := Option.some.inj h
      exact ⟨c, rest, rfl, hg.1, longest_digits rest, hg.2⟩
  · rintro ⟨c, rest, rfl, hg, hlongest, hne⟩
    obtain rfl := hlongest.unique (longest_digits rest)
    rw [codeDigitsAt?, if_pos ⟨hg, hne⟩]

/-- The value of a G word is that of its digits, if they are ASCII and it fits into 32 bits. -/
theorem codeValue_eq_some_iff {digits : List Char} {n : Nat} :
    codeValue digits = some n ↔
      (∀ c ∈ digits, c.isDigit = true) ∧ Decimal.value digits = n ∧ n < 2 ^ 32 := by
  have hgreatest : greatestCode = 2 ^ 32 - 1 := rfl
  unfold codeValue
  split_ifs with h
  · simp only [Bool.and_eq_true, List.all_eq_true, decide_eq_true_eq] at h
    grind
  · simp only [Bool.and_eq_true, List.all_eq_true, decide_eq_true_eq] at h
    grind

/-- The fields are what is found by searching a text for each letter alone. -/
structure Fields.FoundIn (s : List Char) (w : Fields) : Prop where
  /-- A field holds the number at the first place where one of its letter can be read. -/
  number : ∀ l, FoundFirst (StandsWithValue l) s (w.number l)
  /-- A number that cannot be read is one with a digit outside ASCII. -/
  readable : ∀ l i number, StandsWithNumber l (s.drop i) number →
    ((numberValue number).isSome = true ↔ AsciiDigits number)
  /-- The code is the number after the first G that has a digit after it, if it is in ASCII and fits
  into 32 bits. -/
  code : ∃ digits, FoundFirst StandsWithDigits s digits ∧ ∀ n, w.g = some n ↔
    ∃ ds, digits = some ds ∧ (∀ c ∈ ds, c.isDigit = true) ∧ Decimal.value ds = n ∧ n < 2 ^ 32

/-- One pass over a text fills the fields as independent searches would, whatever the text is. -/
theorem readFields_foundIn (s : List Char) : (readFields s).FoundIn s where
  number l := by
    rw [number_readFields, field_words]
    exact foundFirst_findSome? (fun _ _ => valueAt?_eq_some_iff) s
  readable := by
    rintro l i number ⟨c, rest, -, -, hlongest⟩
    exact isSome_numberValue_iff hlongest.mem
  code := by
    refine ⟨codeDigits? s, ?_, fun n => ?_⟩
    · rw [codeDigits?_eq_findSome?]
      exact foundFirst_findSome? (fun _ _ => codeDigitsAt?_eq_some_iff) s
    · change (codeDigits? s).bind codeValue = some n ↔ _
      simp only [Option.bind_eq_some_iff, codeValue_eq_some_iff]

-- The first G decides, even if its digits are not of ASCII.
example : (readFields "g٣ G1".toList).g = none := by decide

end Milling.Block
