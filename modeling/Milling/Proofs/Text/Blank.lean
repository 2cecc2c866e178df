import Mathlib.Data.List.TakeWhile
import Milling.Text.Blank
/-!
Trimming.

A text is what trimming leaves, with blanks on both sides (`exists_eq_trim`), and blanks that are
added on either side are trimmed away again (`trim_append_left`, `trim_append_right`). What is left
has no blank at its ends (`isBlank_of_mem_head?_trim`, `isBlank_of_mem_getLast?_trim`).
-/

namespace Milling.Text

def IsBlankText (s : List Char) : Prop :=
  ∀ c ∈ s, isBlank c = true

theorem dropWhile_isBlank {s : List Char} (h : IsBlankText s) : s.dropWhile isBlank = [] :=
  List.dropWhile_eq_nil_iff.mpr h

theorem IsBlankText.reverse {s : List Char} (h : IsBlankText s) : IsBlankText s.reverse :=
  fun c hc => h c (List.mem_reverse.mp hc)

theorem isBlankText_takeWhile (s : List Char) : IsBlankText (s.takeWhile isBlank) :=
  fun _ hc => List.mem_takeWhile_imp hc

/-- Trimming takes blanks off both ends and nothing else. -/
theorem exists_eq_trim (s : List Char) :
    ∃ left right, s = left ++ trim s ++ right ∧ IsBlankText left ∧ IsBlankText right := by
  refine ⟨s.takeWhile isBlank, ((trimLeft s).reverse.takeWhile isBlank).reverse, ?_,
    isBlankText_takeWhile s, (isBlankText_takeWhile _).reverse⟩
  have hright : trimLeft s = trim s ++ ((trimLeft s).reverse.takeWhile isBlank).reverse := by
    rw [trim, trimRight, ← List.reverse_append, List.takeWhile_append_dropWhile,
      List.reverse_reverse]
  rw [List.append_assoc, ← hright, trimLeft, List.takeWhile_append_dropWhile]

theorem trim_append_left {w : List Char} (h : IsBlankText w) (s : List Char) :
    trim (w ++ s) = trim s := by
  unfold trim trimLeft
  rw [List.dropWhile_append, dropWhile_isBlank h]
  rfl

theorem trimRight_append {w : List Char} (h : IsBlankText w) (s : List Char) :
    trimRight (s ++ w) = trimRight s := by
  unfold trimRight
  rw [List.reverse_append, List.dropWhile_append, dropWhile_isBlank h.reverse]
  rfl

theorem trim_append_right {w : List Char} (h : IsBlankText w) (s : List Char) :
    trim (s ++ w) = trim s := by
  unfold trim
  have hleft : trimLeft (s ++ w) = trimLeft s ++ if trimLeft s = [] then [] else w := by
    unfold trimLeft
    rw [List.dropWhile_append, dropWhile_isBlank h]
    cases s.dropWhile isBlank <;> simp
  rw [hleft]
  split
  · rw [List.append_nil]
  · exact trimRight_append h _

theorem trim_trim (s : List Char) : trim (trim s) = trim s := by
  obtain ⟨left, right, hs, hleft, hright⟩ := exists_eq_trim s
  calc trim (trim s) = trim (left ++ trim s ++ right) := by
        rw [trim_append_right hright, trim_append_left hleft]
    _ = trim s := by rw [← hs]

theorem trim_isInfix (s : List Char) : trim s <:+: s := by
  obtain ⟨left, right, hs, -, -⟩ := exists_eq_trim s
  exact ⟨left, right, hs.symm⟩

theorem IsBlankText.count_eq_zero {s : List Char} (h : IsBlankText s) {c : Char}
    (hc : isBlank c = false) : s.count c = 0 :=
  List.count_eq_zero.mpr fun hmem => by
    rw [h c hmem] at hc
    cases hc

/-- Trimming takes away nothing but blanks. -/
theorem count_trim {c : Char} (hc : isBlank c = false) (s : List Char) :
    (trim s).count c = s.count c := by
  obtain ⟨left, right, hs, hleft, hright⟩ := exists_eq_trim s
  calc (trim s).count c = (left ++ trim s ++ right).count c := by
        rw [List.count_append, List.count_append, hleft.count_eq_zero hc,
          hright.count_eq_zero hc, Nat.zero_add, Nat.add_zero]
    _ = s.count c := by rw [← hs]

/-- A trimmed text does not start with a blank, since it would be trimmed again. -/
theorem isBlank_of_mem_head?_trim {s : List Char} {c : Char} (h : c ∈ (trim s).head?) :
    isBlank c = false := by
  obtain ⟨rest, hrest⟩ := List.head?_eq_some_iff.mp h
  rw [Bool.eq_false_iff]
  intro hc
  have hagain : trim s = trim rest := by
    rw [← trim_trim, hrest]
    exact trim_append_left (w := [c]) (by simpa [IsBlankText] using hc) rest
  have := (trim_isInfix rest).length_le
  rw [← hagain, hrest, List.length_cons] at this
  omega

theorem isBlank_of_mem_getLast?_trim {s : List Char} {c : Char} (h : c ∈ (trim s).getLast?) :
    isBlank c = false := by
  obtain ⟨start, hstart⟩ := List.getLast?_eq_some_iff.mp h
  rw [Bool.eq_false_iff]
  intro hc
  have hagain : trim s = trim start := by
    rw [← trim_trim, hstart]
    exact trim_append_right (w := [c]) (by simpa [IsBlankText] using hc) start
  have := (trim_isInfix start).length_le
  rw [← hagain, hstart, List.length_append, List.length_singleton] at this
  omega

/-- Nothing is left of blank texts alone. -/
theorem trim_eq_nil_iff {s : List Char} : trim s = [] ↔ IsBlankText s := by
  constructor
  · intro h c hc
    obtain ⟨left, right, hs, hleft, hright⟩ := exists_eq_trim s
    rw [h, List.append_nil] at hs
    rw [hs] at hc
    rcases List.mem_append.mp hc with hc | hc
    · exact hleft c hc
    · exact hright c hc
  · intro h
    simpa [trim, trimLeft, trimRight] using trim_append_right h []

end Milling.Text
