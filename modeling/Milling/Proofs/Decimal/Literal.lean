import Milling.Proofs.Decimal.Digits
/-!
Reading a text as a decimal literal.

Digits with at most one point before, among or after them are a literal. A character that is neither
a digit nor a point nor the mark of an exponent makes the whole text unreadable.
-/

namespace Milling.Decimal

/-- All digits at the start of a text are taken, and no more. -/
theorem spanAscii_append {s rest : List Char} (hs : Digits s)
    (hrest : ∀ c ∈ rest.head?, c.isDigit = false) : spanAscii (s ++ rest) = (s, rest) := by
  unfold spanAscii
  rw [List.takeWhile_append_of_pos hs, List.dropWhile_append_of_pos hs]
  cases rest with
  | nil => rw [List.takeWhile_nil, List.append_nil, List.dropWhile_nil]
  | cons c rest =>
    have hc : ¬ c.isDigit = true := by rw [hrest c rfl]; exact Bool.false_ne_true
    rw [List.takeWhile_cons_of_neg hc, List.append_nil, List.dropWhile_cons_of_neg hc]

theorem spanAscii_digits {s : List Char} (hs : Digits s) : spanAscii s = (s, []) := by
  have h : spanAscii (s ++ []) = (s, []) := spanAscii_append hs nofun
  rwa [List.append_nil] at h

/-- No literal goes on at this character once its digits have begun. -/
structure EndsLiteral (c : Char) : Prop where
  digit : c.isDigit = false
  point : c ≠ '.'
  mark : c ≠ 'e' ∧ c ≠ 'E'

section

variable {ds fs rest : List Char} {c : Char}

theorem isSome_ofText?_whole (hds : Digits ds) (hne : ds ≠ []) : (ofText? ds).isSome = true := by
  simp [ofText?, spanAscii_digits hds, hne]

/-- Digits around a point are a literal if there are some on either side. -/
theorem isSome_ofText?_point (hds : Digits ds) (hfs : Digits fs) (hne : ds ≠ [] ∨ fs ≠ []) :
    (ofText? (ds ++ '.' :: fs)).isSome = true := by
  have hpoint : spanAscii (ds ++ '.' :: fs) = (ds, '.' :: fs) := spanAscii_append hds (by simp)
  have hnone : ¬ (ds.isEmpty && fs.isEmpty) = true := by
    rw [Bool.and_eq_true, List.isEmpty_iff, List.isEmpty_iff]
    exact fun h => hne.elim (· h.1) (· h.2)
  simp only [ofText?, hpoint, spanAscii_digits hfs, if_neg hnone, Option.isSome_some]

/-- Digits that something else follows are no literal. -/
theorem ofText?_whole_ends (hds : Digits ds) (hc : EndsLiteral c) :
    ofText? (ds ++ c :: rest) = none := by
  have hspan : spanAscii (ds ++ c :: rest) = (ds, c :: rest) :=
    spanAscii_append hds (by simp [hc.digit])
  simp [ofText?, hspan, hc.point, hc.mark]

theorem ofText?_point_ends (hds : Digits ds) (hfs : Digits fs) (hc : EndsLiteral c) :
    ofText? (ds ++ '.' :: (fs ++ c :: rest)) = none := by
  have hpoint : spanAscii (ds ++ '.' :: (fs ++ c :: rest)) = (ds, '.' :: (fs ++ c :: rest)) :=
    spanAscii_append hds (by simp)
  have hspan : spanAscii (fs ++ c :: rest) = (fs, c :: rest) :=
    spanAscii_append hfs (by simp [hc.digit])
  simp [ofText?, hpoint, hspan, hc.mark]

end

end Milling.Decimal
