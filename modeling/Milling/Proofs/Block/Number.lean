import Milling.Block.Number
import Milling.Proofs.Text.Match
/-!
The numbers of words as languages.

A number is digits, or digits around a point of which some have to be there. `finds_decimal` says
when a scanner finds the longest such text, whatever the point asks for, and `finds_numberAt?` that
`numberAt?` does so for the numbers of words.
-/

namespace Milling.Block

open Text

/-- Digits, or digits around a point if they are what the point asks for. -/
inductive IsDecimal (point : List Char → List Char → Prop) : List Char → Prop
  | whole {ds : List Char} : ds ≠ [] → Digits ds → IsDecimal point ds
  | point {ds fs : List Char} : point ds fs → Digits ds → Digits fs →
      IsDecimal point (ds ++ '.' :: fs)

/-- A number without sign has a digit on some side of its point. -/
def IsUnsigned : List Char → Prop :=
  IsDecimal fun ds fs => ds ≠ [] ∨ fs ≠ []

/-- A number without sign, or a minus sign and one. -/
inductive IsNumber : List Char → Prop
  | plain {w : List Char} : IsUnsigned w → IsNumber w
  | minus {w : List Char} : IsUnsigned w → IsNumber ('-' :: w)

theorem IsDecimal.eq_or_of_mem {point : List Char → List Char → Prop} {w : List Char}
    (h : IsDecimal point w) {c : Char} (hc : c ∈ w) : c = '.' ∨ isDecimalDigit c = true := by
  cases h with
  | whole _ hdigits => exact .inr (hdigits c hc)
  | point _ hds hfs =>
    rcases List.mem_append.mp hc with hc | hc
    · exact .inr (hds c hc)
    · exact (List.mem_cons.mp hc).imp_right (hfs c)

theorem IsNumber.eq_or_of_mem {w : List Char} (h : IsNumber w) {c : Char} (hc : c ∈ w) :
    c = '-' ∨ c = '.' ∨ isDecimalDigit c = true := by
  cases h with
  | plain h => exact .inr (h.eq_or_of_mem hc)
  | minus h => exact (List.mem_cons.mp hc).imp_right h.eq_or_of_mem

section Scan

variable {point : List Char → List Char → Prop} {s rest : List Char}

/-- The digits at the start of a text, a point after them and the digits after it. -/
theorem point_prefix (h : s.dropWhile isDecimalDigit = '.' :: rest) :
    s.takeWhile isDecimalDigit ++ '.' :: rest.takeWhile isDecimalDigit <+: s := by
  obtain ⟨later, hlater⟩ := List.takeWhile_prefix isDecimalDigit (l := rest)
  refine ⟨later, ?_⟩
  rw [List.append_assoc, List.cons_append, hlater, ← h, List.takeWhile_append_dropWhile]

/-- A number at the start of a text is within its digits, or goes on at the point after them. -/
theorem IsDecimal.prefix_cases {v : List Char} (hv : IsDecimal point v) (h : v <+: s) :
    (v ≠ [] ∧ v <+: s.takeWhile isDecimalDigit) ∨
      ∃ rest fs, s.dropWhile isDecimalDigit = '.' :: rest ∧
        v = s.takeWhile isDecimalDigit ++ '.' :: fs ∧ fs <+: rest.takeWhile isDecimalDigit ∧
        point (s.takeWhile isDecimalDigit) fs := by
  cases hv with
  | whole hne hdigits => exact .inl ⟨hne, prefix_takeWhile hdigits h⟩
  | @point ds fs hpoint hds hfs =>
    obtain ⟨rfl, rest, hrest, hstart⟩ := prefix_point hds h
    exact .inr ⟨rest, fs, hrest, rfl, prefix_takeWhile hfs hstart, hpoint⟩

/-- Digits around a point are the longest number if the point takes them, since a number that goes
on at the point has no more digits after it than there are. -/
theorem longest_point (hrest : s.dropWhile isDecimalDigit = '.' :: rest)
    (hpoint : point (s.takeWhile isDecimalDigit) (rest.takeWhile isDecimalDigit)) :
    Longest (IsDecimal point) s
      (s.takeWhile isDecimalDigit ++ '.' :: rest.takeWhile isDecimalDigit) := by
  refine ⟨.point hpoint (digits_takeWhile s) (digits_takeWhile rest), point_prefix hrest, ?_⟩
  intro v hv hstart
  rw [List.length_append, List.length_cons]
  rcases hv.prefix_cases hstart with ⟨-, hdigits⟩ | ⟨rest', fs, hrest', rfl, hfs, -⟩
  · have := hdigits.length_le
    omega
  · rw [hrest] at hrest'
    obtain rfl := (List.cons.inj hrest').2
    have := hfs.length_le
    rw [List.length_append, List.length_cons]
    omega

variable (hmono : ∀ ds fs gs, fs <+: gs → point ds fs → point ds gs)
include hmono

section Whole

variable (hnone : ∀ rest, s.dropWhile isDecimalDigit = '.' :: rest →
  ¬ point (s.takeWhile isDecimalDigit) (rest.takeWhile isDecimalDigit))
include hnone

/-- If the point does not take the digits after it, no number goes beyond the digits before it. -/
theorem prefix_takeWhile_of_isDecimal {v : List Char} (hv : IsDecimal point v) (h : v <+: s) :
    v ≠ [] ∧ v <+: s.takeWhile isDecimalDigit := by
  rcases hv.prefix_cases h with hwhole | ⟨rest, fs, hrest, -, hfs, hpoint⟩
  · exact hwhole
  · exact absurd (hmono _ _ _ hfs hpoint) (hnone rest hrest)

theorem longest_whole (hne : s.takeWhile isDecimalDigit ≠ []) :
    Longest (IsDecimal point) s (s.takeWhile isDecimalDigit) := by
  refine ⟨.whole hne (digits_takeWhile s), List.takeWhile_prefix _, ?_⟩
  intro v hv hstart
  exact (prefix_takeWhile_of_isDecimal hmono hnone hv hstart).2.length_le

theorem not_isPrefix_of_isDecimal (hempty : s.takeWhile isDecimalDigit = []) {v : List Char}
    (hv : IsDecimal point v) : ¬ v <+: s := by
  intro hstart
  obtain ⟨hne, hdigits⟩ := prefix_takeWhile_of_isDecimal hmono hnone hv hstart
  rw [hempty, List.prefix_nil] at hdigits
  exact hne hdigits

end Whole

variable {scan : List Char → Option (List Char)}

/-- A scanner that takes the digits around a point where that is a number, and else the digits
before it, finds the longest number. The point must not refuse more digits after it. -/
theorem finds_decimal
    (hscan_point : ∀ s rest, s.dropWhile isDecimalDigit = '.' :: rest →
      point (s.takeWhile isDecimalDigit) (rest.takeWhile isDecimalDigit) →
      scan s = some (s.takeWhile isDecimalDigit ++ '.' :: rest.takeWhile isDecimalDigit))
    (hscan_whole : ∀ s, (∀ rest, s.dropWhile isDecimalDigit = '.' :: rest →
        ¬ point (s.takeWhile isDecimalDigit) (rest.takeWhile isDecimalDigit)) →
      scan s = if s.takeWhile isDecimalDigit = [] then none
        else some (s.takeWhile isDecimalDigit)) :
    Finds scan (IsDecimal point) := by
  have hfinds : ∀ s, (∃ w, scan s = some w ∧ Longest (IsDecimal point) s w) ∨
      (scan s = none ∧ ∀ v, IsDecimal point v → ¬ v <+: s) := by
    intro s
    by_cases h : ∃ rest, s.dropWhile isDecimalDigit = '.' :: rest ∧
        point (s.takeWhile isDecimalDigit) (rest.takeWhile isDecimalDigit)
    · obtain ⟨rest, hrest, hpoint⟩ := h
      exact .inl ⟨_, hscan_point s rest hrest hpoint, longest_point hrest hpoint⟩
    · have hnone : ∀ rest, s.dropWhile isDecimalDigit = '.' :: rest →
          ¬ point (s.takeWhile isDecimalDigit) (rest.takeWhile isDecimalDigit) :=
        fun rest hrest hpoint => h ⟨rest, hrest, hpoint⟩
      rw [hscan_whole s hnone]
      split
      · rename_i hempty
        exact .inr ⟨rfl, fun v => not_isPrefix_of_isDecimal hmono hnone hempty⟩
      · rename_i hne
        exact .inl ⟨_, rfl, longest_whole hmono hnone hne⟩
  constructor
  · intro s w hscan
    rcases hfinds s with ⟨v, hv, hlongest⟩ | ⟨hnone, -⟩
    · rw [hscan] at hv
      exact Option.some.inj hv ▸ hlongest
    · rw [hscan] at hnone
      cases hnone
  · intro s hscan
    rcases hfinds s with ⟨v, hv, -⟩ | ⟨-, hnone⟩
    · rw [hscan] at hv
      cases hv
    · exact hnone

end Scan

theorem ne_nil_of_isPrefix {fs gs : List Char} (h : fs <+: gs) (hne : fs ≠ []) : gs ≠ [] := by
  rintro rfl
  exact hne (List.prefix_nil.mp h)

/-- The reader of numbers without sign finds the longest one. -/
theorem finds_unsignedAt? : Finds unsignedAt? IsUnsigned := by
  refine finds_decimal ?_ ?_ ?_
  · intro ds fs gs hstart hpoint
    exact hpoint.imp_right (ne_nil_of_isPrefix hstart)
  · intro s rest hrest hpoint
    have hsome : ((s.takeWhile isDecimalDigit).isEmpty &&
        (rest.takeWhile isDecimalDigit).isEmpty) = false :=
      Bool.and_eq_false_iff.mpr
        (hpoint.imp List.isEmpty_eq_false_iff.mpr List.isEmpty_eq_false_iff.mpr)
    simp only [unsignedAt?, hrest, hsome]
    rfl
  · intro s hnone
    unfold unsignedAt?
    split
    · rename_i rest hrest
      have := hnone rest hrest
      simp only [not_or, not_not] at this
      simp [this]
    · simp

theorem IsUnsigned.head {c : Char} {w : List Char} (h : IsUnsigned (c :: w)) :
    c = '.' ∨ isDecimalDigit c = true := by
  generalize hv : c :: w = v at h
  cases h with
  | whole hne hdigits =>
    subst hv
    exact .inr (hdigits c List.mem_cons_self)
  | @point ds fs hpoint hds hfs =>
    cases ds with
    | nil => exact .inl (List.cons.inj hv).1
    | cons d ds =>
      obtain rfl := (List.cons.inj hv).1
      exact .inr (hds c List.mem_cons_self)

theorem IsUnsigned.ne_nil {w : List Char} (h : IsUnsigned w) : w ≠ [] := by
  cases h with
  | whole hne => exact hne
  | point => simp

theorem not_isUnsigned_minus (w : List Char) : ¬ IsUnsigned ('-' :: w) := by
  intro h
  rcases h.head with h | h
  · exact absurd h (by decide)
  · exact absurd h (by decide)

/-- The reader of numbers finds the longest one. -/
theorem finds_numberAt? : Finds numberAt? IsNumber := by
  constructor
  · intro s w hscan
    unfold numberAt? at hscan
    split at hscan
    · rename_i rest
      obtain ⟨w, hw, rfl⟩ := Option.map_eq_some_iff.mp hscan
      have hlongest := finds_unsignedAt?.some hw
      refine ⟨.minus hlongest.mem, (List.prefix_cons_inj '-').mpr hlongest.isPrefix, ?_⟩
      intro v hv hstart
      cases hv with
      | plain hv =>
        obtain ⟨c, v, rfl⟩ := List.exists_cons_of_ne_nil hv.ne_nil
        obtain rfl := (List.cons_prefix_cons.mp hstart).1
        exact absurd hv (not_isUnsigned_minus v)
      | minus hv =>
        exact Nat.succ_le_succ
          (hlongest.greatest _ hv ((List.prefix_cons_inj '-').mp hstart))
    · rename_i hplain
      have hlongest := finds_unsignedAt?.some hscan
      refine ⟨.plain hlongest.mem, hlongest.isPrefix, ?_⟩
      intro v hv hstart
      cases hv with
      | plain hv => exact hlongest.greatest v hv hstart
      | minus hv =>
        obtain ⟨rest, rfl⟩ := hstart
        exact absurd rfl (hplain _)
  · intro s hscan v hv hstart
    unfold numberAt? at hscan
    split at hscan
    · rename_i rest
      have hnone := finds_unsignedAt?.none (Option.map_eq_none_iff.mp hscan)
      cases hv with
      | plain hv =>
        obtain ⟨c, v, rfl⟩ := List.exists_cons_of_ne_nil hv.ne_nil
        obtain rfl := (List.cons_prefix_cons.mp hstart).1
        exact not_isUnsigned_minus v hv
      | minus hv => exact hnone _ hv ((List.prefix_cons_inj '-').mp hstart)
    · rename_i hplain
      cases hv with
      | plain hv => exact finds_unsignedAt?.none hscan v hv hstart
      | minus hv =>
        obtain ⟨rest, rfl⟩ := hstart
        exact hplain _ rfl

end Milling.Block
