import Mathlib
import Milling.Decimal.Literal
/-!
Natural numbers in decimal digits: the text of a number, and the number of a text.
-/

namespace Milling.Decimal

def Digits (s : List Char) : Prop :=
  ∀ c ∈ s, c.isDigit = true

theorem Digits.append {s t : List Char} (hs : Digits s) (ht : Digits t) : Digits (s ++ t) := by
  intro c hc
  rcases List.mem_append.mp hc with h | h
  · exact hs c h
  · exact ht c h

theorem digits_replicate (k : Nat) : Digits (List.replicate k '0') := by
  intro c hc
  rw [List.eq_of_mem_replicate hc]
  rfl

/-! ### The text of a number -/

theorem text_ne_nil (n : Nat) : text n ≠ [] :=
  Nat.toDigits_ne_nil

theorem digits_text (n : Nat) : Digits (text n) :=
  fun _ hc => Nat.isDigit_of_mem_toDigits (by decide) (by decide) hc

theorem value_text (n : Nat) : value (text n) = n :=
  Nat.ofDigitChars_ten_toDigits

/-- A number below a power of ten has no more digits than that power has zeros. -/
theorem length_text_le_iff {n k : Nat} (hk : 0 < k) : (text n).length ≤ k ↔ n < 10 ^ k :=
  Nat.length_toDigits_le_iff (by decide) hk

theorem length_text_pos (n : Nat) : 0 < (text n).length :=
  Nat.length_toDigits_pos

/-- The leading digit of a number counts. -/
theorem pow_length_text_le {n : Nat} (hn : 0 < n) : 10 ^ ((text n).length - 1) ≤ n := by
  rcases Nat.eq_zero_or_pos ((text n).length - 1) with hone | hmore
  · rw [hone]
    exact hn
  · rw [← Nat.not_lt, ← length_text_le_iff hmore]
    omega

/-! ### The number of a text -/

theorem value_append (s t : List Char) : value (s ++ t) = 10 ^ t.length * value s + value t := by
  unfold value
  rw [Nat.ofDigitChars_append, Nat.ofDigitChars_eq_ofDigitChars_zero]

theorem value_cons (c : Char) (s : List Char) :
    value (c :: s) = 10 ^ s.length * (c.toNat - '0'.toNat) + value s := by
  have h := value_append [c] s
  simpa [value, Nat.ofDigitChars_cons] using h

theorem value_zeros (k : Nat) : value (List.replicate k '0') = 0 := by
  rw [value, Nat.ofDigitChars_replicate_zero, Nat.mul_zero]

theorem toNat_of_isDigit {c : Char} (h : c.isDigit = true) :
    '0'.toNat ≤ c.toNat ∧ c.toNat - '0'.toNat < 10 := by
  simp only [Char.isDigit, Bool.and_eq_true, decide_eq_true_eq] at h
  obtain ⟨hlow, hhigh⟩ := h
  have hlow' : 48 ≤ c.toNat := hlow
  have hhigh' : c.toNat ≤ 57 := hhigh
  change 48 ≤ c.toNat ∧ c.toNat - 48 < 10
  omega

/-- Digits stand for a number below the power of ten with as many zeros. -/
theorem value_lt {s : List Char} (hs : Digits s) : value s < 10 ^ s.length := by
  induction s with
  | nil => decide
  | cons c s ih =>
    have hc := (toNat_of_isDigit (hs c List.mem_cons_self)).2
    have hrest := ih fun d hd => hs d (List.mem_cons_of_mem c hd)
    rw [value_cons, List.length_cons, Nat.pow_succ]
    calc 10 ^ s.length * (c.toNat - '0'.toNat) + value s
        < 10 ^ s.length * (c.toNat - '0'.toNat) + 10 ^ s.length := Nat.add_lt_add_left hrest _
      _ = 10 ^ s.length * (c.toNat - '0'.toNat + 1) := by rw [Nat.mul_add_one]
      _ ≤ 10 ^ s.length * 10 := Nat.mul_le_mul_left _ hc

/-- The text of a number that is not zero starts with another digit than zero. -/
theorem head_text_ne_zero {n : Nat} (hn : 0 < n) {c : Char} {s : List Char}
    (h : text n = c :: s) : c ≠ '0' := by
  rintro rfl
  have hlow := pow_length_text_le hn
  have hval := value_text n
  have hs : Digits s := fun d hd => digits_text n d (h ▸ List.mem_cons_of_mem '0' hd)
  rw [h, value_cons, Nat.sub_self, Nat.mul_zero, Nat.zero_add] at hval
  rw [h, List.length_cons, Nat.add_sub_cancel, ← hval] at hlow
  exact absurd (value_lt hs) (Nat.not_lt.mpr hlow)

end Milling.Decimal
