import Milling.Block.Word
import Milling.Proofs.Block.Number
/-!
Where the words of a block stand.

The words of a block are found in one pass that leaves out the numbers it has taken. As no number
holds an address letter, no word is missed in this way: the words are those at all places of the
text (`words_eq`). Every one is an address letter with its number directly after it
(`exists_eq_of_mem_words`), so a field that is filled points to a letter of the text
(`exists_eq_of_field`).
-/

namespace Milling.Block

open Text

/-! ### Letters -/

def Letter.capital : Letter → Char
  | .x => 'X'
  | .y => 'Y'
  | .z => 'Z'
  | .f => 'F'
  | .i => 'I'
  | .j => 'J'
  | .k => 'K'

/-- The character is the letter in upper or in lower case. -/
def Letter.IsWritten (l : Letter) (c : Char) : Prop :=
  c = l.capital ∨ c = l.capital.toLower

theorem ofChar?_eq_some_iff {l : Letter} {c : Char} :
    Letter.ofChar? c = some l ↔ l.IsWritten c := by
  constructor
  · intro h
    unfold Letter.ofChar? at h
    simp only [Bool.or_eq_true, beq_iff_eq] at h
    split_ifs at h with hx hy hz hf hi hj hk <;> obtain rfl := Option.some.inj h <;> assumption
  · rintro (rfl | rfl) <;> cases l <;> rfl

/-- All characters that a number after them joins to a word. -/
def addresses : List Char :=
  ['X', 'x', 'Y', 'y', 'Z', 'z', 'F', 'f', 'I', 'i', 'J', 'j', 'K', 'k', kelvin]

/-- Words start with a letter in either case, or with one of two characters that fold to letters. -/
theorem mem_addresses_of_isAddress {c : Char} (h : isAddress c = true) : c ∈ addresses := by
  rcases Bool.or_eq_true_iff.mp h with h | h
  · obtain ⟨l, hl⟩ := Option.isSome_iff_exists.mp h
    rcases ofChar?_eq_some_iff.mp hl with rfl | rfl <;> cases l <;> decide
  · obtain rfl := beq_iff_eq.mp h
    decide

/-- A number holds no address. -/
theorem IsNumber.not_isAddress {w : List Char} (h : IsNumber w) {c : Char} (hc : c ∈ w) :
    isAddress c = false := by
  have hnone : (addresses.all fun a => a != '-' && a != '.' && !isDecimalDigit a) = true := by decide
  rw [Bool.eq_false_iff]
  intro haddress
  have hother := List.all_eq_true.mp hnone c (mem_addresses_of_isAddress haddress)
  rcases h.eq_or_of_mem hc with rfl | rfl | hdigit
  · exact absurd hother (by decide)
  · exact absurd hother (by decide)
  · simp [hdigit] at hother

/-! ### Words -/

def wordAt? : List Char → Option Word
  | [] => none
  | c :: rest => if isAddress c then (numberAt? rest).map (⟨c, ·⟩) else none

theorem wordAt?_of_not_isAddress {c : Char} (h : isAddress c = false) (rest : List Char) :
    wordAt? (c :: rest) = none := by
  rw [wordAt?, h]
  rfl

/-- The word at the start of a text is a letter with the longest number after it. -/
theorem wordAt?_eq_some_iff {s : List Char} {w : Word} :
    wordAt? s = some w ↔
      ∃ rest, s = w.address :: rest ∧ isAddress w.address = true ∧
        numberAt? rest = some w.number := by
  constructor
  · intro h
    unfold wordAt? at h
    split at h
    · cases h
    · rename_i c rest
      split_ifs at h with haddress
      obtain ⟨number, hnumber, rfl⟩ := Option.map_eq_some_iff.mp h
      exact ⟨rest, rfl, haddress, hnumber⟩
  · rintro ⟨rest, rfl, haddress, hnumber⟩
    rw [wordAt?, if_pos haddress, hnumber, Option.map_some]

/-- The pass over a text finds the words at all its places. -/
theorem words_eq (s : List Char) : words s = s.tails.filterMap wordAt? := by
  induction s using words.induct with
  | case1 => simp [words, wordAt?]
  | case2 c rest haddress number hnumber ih =>
    have hlongest := finds_numberAt?.some hnumber
    obtain ⟨later, rfl⟩ := hlongest.isPrefix
    have hword : wordAt? (c :: (number ++ later)) = some ⟨c, number⟩ := by
      rw [wordAt?, if_pos haddress, hnumber, Option.map_some]
    rw [words, if_pos haddress, hnumber, List.tails_cons, List.filterMap_cons_some hword,
      filterMap_tails_append fun d hd => wordAt?_of_not_isAddress (hlongest.mem.not_isAddress hd)]
    simp only [List.drop_left] at ih ⊢
    rw [ih]
  | case3 c rest haddress hnumber ih =>
    have hword : wordAt? (c :: rest) = none := by
      rw [wordAt?, if_pos haddress, hnumber, Option.map_none]
    rw [words, if_pos haddress, hnumber, List.tails_cons, List.filterMap_cons_none hword]
    exact ih
  | case4 c rest haddress ih =>
    have hword := wordAt?_of_not_isAddress (Bool.eq_false_iff.mpr haddress) rest
    rw [words, if_neg haddress, List.tails_cons, List.filterMap_cons_none hword]
    exact ih

/-- Every word of a text stands somewhere in it as it is. -/
theorem exists_eq_of_mem_words {s : List Char} {w : Word} (h : w ∈ words s) :
    ∃ before after, s = before ++ w.address :: (w.number ++ after) ∧ IsNumber w.number := by
  rw [words_eq] at h
  obtain ⟨t, ht, hw⟩ := List.mem_filterMap.mp h
  obtain ⟨before, rfl⟩ := (List.mem_tails _ _).mp ht
  obtain ⟨rest, rfl, -, hnumber⟩ := wordAt?_eq_some_iff.mp hw
  obtain ⟨after, hafter⟩ := (finds_numberAt?.some hnumber).isPrefix
  exact ⟨before, after, by rw [hafter], (finds_numberAt?.some hnumber).mem⟩

/-- A field is filled by a number that stands after its letter. -/
theorem exists_eq_of_field {s : List Char} {l : Letter} (h : (field (words s) l).isSome = true) :
    ∃ before c number after, s = before ++ c :: (number ++ after) ∧
      Letter.ofChar? c = some l ∧ IsNumber number := by
  obtain ⟨v, hv⟩ := Option.isSome_iff_exists.mp h
  obtain ⟨w, hw, -⟩ := List.exists_of_findSome?_eq_some hv
  obtain ⟨hw, hfills⟩ := List.mem_filter.mp hw
  obtain ⟨before, after, hs, hnumber⟩ := exists_eq_of_mem_words hw
  exact ⟨before, w.address, w.number, after, hs, beq_iff_eq.mp hfills, hnumber⟩

end Milling.Block
