import Milling.Json.Token
import Milling.Proofs.Decimal.Literal
import Milling.Proofs.Decimal.Value
/-!
Numbers of JSON in their parts: what the writer puts into a text and what the reader finds there.

A `Literal` is the digits before the point, those after it and the exponent. Every number that is
written is a literal, and the reader takes a literal apart into the same parts again
(`spanNumber_chars`).
-/

namespace Milling

open Decimal

namespace Json

/-- A number without sign in its parts; no digits after the point stand for no point. -/
structure Literal where
  whole : List Char
  fraction : List Char
  exponent : Option Int

/-- The text goes on with nothing that could belong to a number. -/
def Stops (rest : List Char) : Prop :=
  ∀ c ∈ rest.head?, c.isDigit = false ∧ c ≠ '.' ∧ c ≠ 'e' ∧ c ≠ 'E'

theorem stops_nil : Stops [] := by
  rintro c ⟨⟩

namespace Literal

/-- The mark of an exponent, its sign and its digits. -/
def exponentChars (k : Int) : List Char :=
  'e' :: ((if k < 0 then '-' else '+') :: text k.natAbs)

def tail (l : Literal) : List Char :=
  (if l.fraction = [] then [] else '.' :: l.fraction) ++ l.exponent.elim [] exponentChars

def chars (l : Literal) : List Char :=
  l.whole ++ l.tail

/-- A literal of the grammar: a digit or more before the point, and no zero before these. -/
structure IsProper (l : Literal) : Prop where
  whole : Digits l.whole
  whole_ne_nil : l.whole ≠ []
  head : ∀ c s, l.whole ≠ '0' :: c :: s
  fraction : Digits l.fraction

/-- What a literal is read as. -/
def datum (l : Literal) (negative : Bool) : Datum :=
  if l.fraction = [] ∧ l.exponent = none then Json.whole negative l.whole
  else real negative (bounded l.whole l.fraction (l.exponent.getD 0))

def decimal (l : Literal) : Decimal :=
  ofParts l.whole l.fraction (l.exponent.getD 0)

end Literal

/-! ### Reading a literal -/

variable {rest : List Char}

theorem isDigit_head_exponent (l : Literal) (hrest : Stops rest) :
    ∀ c ∈ (l.exponent.elim [] Literal.exponentChars ++ rest).head?, c.isDigit = false := by
  intro c hc
  cases hexp : l.exponent with
  | none =>
    rw [hexp] at hc
    exact (hrest c hc).1
  | some k =>
    rw [hexp] at hc
    cases hc
    rfl

theorem isDigit_head_tail (l : Literal) (hrest : Stops rest) :
    ∀ c ∈ (l.tail ++ rest).head?, c.isDigit = false := by
  unfold Literal.tail
  split
  · exact isDigit_head_exponent l hrest
  · intro c hc
    cases hc
    rfl

/-- The digits after the point are read as they were written, or as none. -/
theorem spanFraction_tail {l : Literal} (h : Digits l.fraction) (hrest : Stops rest) :
    spanFraction (l.tail ++ rest) = some (l.fraction, decide (l.fraction ≠ []),
      l.exponent.elim [] Literal.exponentChars ++ rest) := by
  unfold Literal.tail
  split
  · rename_i hnil
    rw [hnil, List.nil_append]
    cases l.exponent with
    | none =>
      cases rest with
      | nil => rfl
      | cons c rest =>
        rw [Option.elim_none, List.nil_append]
        unfold spanFraction
        split
        · rename_i heq
          obtain ⟨rfl, -⟩ := List.cons_eq_cons.mp heq
          exact absurd rfl (hrest '.' rfl).2.1
        · rfl
    | some k => rfl
  · rename_i hne
    rw [List.append_assoc, List.cons_append, spanFraction,
      spanAscii_append h (isDigit_head_exponent l hrest)]
    simp [hne]

theorem spanExponent_chars (k : Int) (hrest : Stops rest) :
    Decimal.spanExponent ((if k < 0 then '-' else '+') :: text k.natAbs ++ rest) =
      some (k, rest) := by
  have hspan := spanAscii_append (digits_text k.natAbs) fun c hc => (hrest c hc).1
  have hvalue := value_text k.natAbs
  obtain ⟨c, s, htext⟩ := List.exists_cons_of_ne_nil (text_ne_nil k.natAbs)
  rw [htext] at hspan hvalue ⊢
  rw [List.cons_append]
  by_cases hk : k < 0
  · rw [if_pos hk]
    simp only [Decimal.spanExponent, hspan, hvalue]
    congr 2
    omega
  · rw [if_neg hk]
    simp only [Decimal.spanExponent, hspan, hvalue]
    congr 2
    omega

theorem spanExponent_tail (l : Literal) (hrest : Stops rest) :
    spanExponent (l.exponent.elim [] Literal.exponentChars ++ rest) =
      some (l.exponent.getD 0, l.exponent.isSome, rest) := by
  cases l.exponent with
  | none =>
    cases rest with
    | nil => rfl
    | cons c rest =>
      obtain ⟨-, -, hlower, hupper⟩ := hrest c rfl
      rw [Option.elim_none, List.nil_append, spanExponent, if_neg (by simp [hlower, hupper])]
      rfl
  | some k =>
    rw [Option.elim_some, Literal.exponentChars, List.cons_append, spanExponent,
      if_pos (by decide), spanExponent_chars k hrest]
    rfl

theorem Literal.IsProper.exists_cons {l : Literal} (h : l.IsProper) :
    ∃ c s, l.whole = c :: s ∧ c.isDigit = true := by
  obtain ⟨c, s, hwhole⟩ := List.exists_cons_of_ne_nil h.whole_ne_nil
  exact ⟨c, s, hwhole, h.whole c (hwhole ▸ List.mem_cons_self)⟩

/-- A literal starts with a digit, so the first character tells whether a sign stands before it. -/
theorem Literal.IsProper.head_signed {l : Literal} (h : l.IsProper) (negative : Bool) {mark : Char}
    (hmark : mark.isDigit = false) (t : List Char) :
    (((if negative then ['-'] else []) ++ (l.whole ++ t)).head? == some mark) =
      (negative && mark == '-') := by
  cases negative with
  | true =>
    rw [Bool.true_and, BEq.comm (a := mark)]
    rfl
  | false =>
    obtain ⟨c, s, hwhole, hdigit⟩ := h.exists_cons
    rw [hwhole]
    refine beq_eq_false_iff_ne.mpr fun heq => ?_
    rw [Option.some_inj.mp heq, hmark] at hdigit
    cases hdigit

/-- The reader takes a literal apart into the parts that the writer put together. -/
theorem spanNumber_chars {l : Literal} (h : l.IsProper) (negative : Bool) (hrest : Stops rest) :
    spanNumber ((if negative then ['-'] else []) ++ (l.chars ++ rest)) =
      some (l.datum negative, rest) := by
  obtain ⟨c, s, hwhole, -⟩ := h.exists_cons
  have hspan : spanAscii (l.chars ++ rest) = (c :: s, l.tail ++ rest) := by
    rw [Literal.chars, List.append_assoc, ← hwhole]
    exact spanAscii_append h.whole (isDigit_head_tail l hrest)
  have hsign : (((if negative then ['-'] else []) ++ (l.chars ++ rest)).head? == some '-') =
      negative := by
    rw [Literal.chars, List.append_assoc, h.head_signed negative (by decide), beq_self_eq_true,
      Bool.and_true]
  have htail : (if negative then ((if negative then ['-'] else []) ++ (l.chars ++ rest)).tail
      else (if negative then ['-'] else []) ++ (l.chars ++ rest)) = l.chars ++ rest := by
    cases negative <;> rfl
  have hfraction := spanFraction_tail h.fraction hrest
  have hexponent := spanExponent_tail l hrest
  unfold spanNumber
  dsimp only
  rw [hsign, htail, hspan]
  split
  · rename_i heq
    cases heq
  · rename_i heq
    obtain ⟨rfl, rfl⟩ := List.cons_eq_cons.mp heq
    exact absurd hwhole (h.head _ _)
  · simp only [hfraction, hexponent, Option.bind_eq_bind, Option.bind_some, ← hwhole]
    unfold Literal.datum
    cases l.exponent with
    | some k => simp
    | none => by_cases hnil : l.fraction = [] <;> simp [hnil]

/-! ### Writing a literal -/

/-- The digits of a decimal around its point, with zeros before them as far as they are needed. -/
def padded (d : Decimal) : List Char :=
  List.replicate (d.exponent.natAbs + 1 - (text d.digits).length) '0' ++ text d.digits

/-- A decimal without an exponent. -/
def plainLiteral (d : Decimal) : Literal :=
  if 0 ≤ d.exponent then ⟨text d.digits ++ List.replicate d.exponent.toNat '0', ['0'], none⟩
  else
    ⟨(padded d).take ((padded d).length - d.exponent.natAbs),
      (padded d).drop ((padded d).length - d.exponent.natAbs), none⟩

/-- The parts in which JSON writes a decimal. -/
def literal (d : Decimal) : Literal :=
  if d.digits = 0 ∨ (-5 ≤ d.power ∧ d.power ≤ 15) then plainLiteral d
  else ⟨(text d.digits).take 1, (text d.digits).drop 1, some d.power⟩

variable {d : Decimal}

theorem length_padded (d : Decimal) :
    (padded d).length = max (d.exponent.natAbs + 1) (text d.digits).length := by
  rw [padded, List.length_append, List.length_replicate]
  omega

theorem fraction_plainLiteral_ne_nil (d : Decimal) : (plainLiteral d).fraction ≠ [] := by
  have hlen := length_padded d
  unfold plainLiteral
  split
  · exact List.cons_ne_nil _ _
  · rw [Ne, List.drop_eq_nil_iff]
    omega

/-- A layout that keeps the point writes a decimal without exponent as this literal. -/
theorem plain_eq {style : Layout} (h : style.keepPoint = true) (d : Decimal) :
    style.plain d = (plainLiteral d).whole ++ '.' :: (plainLiteral d).fraction := by
  unfold Layout.plain plainLiteral
  rw [h]
  split <;> rfl

theorem exponent_plainLiteral (d : Decimal) : (plainLiteral d).exponent = none := by
  unfold plainLiteral
  split <;> rfl

theorem chars_plainLiteral (d : Decimal) :
    (plainLiteral d).chars = (plainLiteral d).whole ++ '.' :: (plainLiteral d).fraction := by
  rw [Literal.chars, Literal.tail, if_neg (fraction_plainLiteral_ne_nil d),
    exponent_plainLiteral, Option.elim_none, List.append_nil]

/-- What JSON writes for a number is the text of its literal. -/
theorem magnitude_eq_chars (d : Decimal) :
    numberLayout.magnitude d = (literal d).chars := by
  change (if d.digits = 0 ∨ (-5 ≤ d.power ∧ d.power ≤ 15) then numberLayout.plain d
    else numberLayout.scientific d d.power) = _
  unfold literal
  split
  · rw [chars_plainLiteral, plain_eq rfl]
  · obtain ⟨c, s, htext⟩ := List.exists_cons_of_ne_nil (text_ne_nil d.digits)
    simp only [Layout.scientific, Literal.chars, Literal.tail, htext, List.take_succ_cons,
      List.take_zero, List.drop_succ_cons, List.drop_zero, Option.elim_some,
      Literal.exponentChars]
    cases s <;> by_cases hneg : d.power < 0 <;> simp [hneg, numberLayout]

theorem digits_padded (d : Decimal) : Digits (padded d) :=
  (digits_replicate _).append (digits_text _)

/-- Zeros stand before the point only if there is no other digit. -/
theorem head_text_append {c : Char} {s t : List Char} (h : text d.digits ++ t = '0' :: c :: s)
    (hd : d.IsNormal) : t ≠ List.replicate d.exponent.toNat '0' := by
  rcases hd with hd | rfl
  · obtain ⟨c', s', htext⟩ := List.exists_cons_of_ne_nil (text_ne_nil d.digits)
    rw [htext, List.cons_append] at h
    obtain ⟨rfl, -⟩ := List.cons_eq_cons.mp h
    exact absurd rfl (head_text_ne_zero (by omega) htext)
  · rintro rfl
    cases h

theorem isProper_plainLiteral (hd : d.IsNormal) : (plainLiteral d).IsProper := by
  unfold plainLiteral
  split
  · exact
      { whole := (digits_text _).append (digits_replicate _)
        whole_ne_nil := by simp [text_ne_nil]
        head := fun c s h => head_text_append h hd rfl
        fraction := digits_replicate 1 }
  · rename_i hneg
    have hlen := length_padded d
    refine
      { whole := fun c hc => digits_padded d c (List.mem_of_mem_take hc)
        whole_ne_nil := ?_
        head := ?_
        fraction := fun c hc => digits_padded d c (List.mem_of_mem_drop hc) }
    · rw [Ne, ← List.length_eq_zero_iff, List.length_take]
      omega
    · intro c s h
      have hcount := congrArg List.length h
      rw [List.length_take, List.length_cons, List.length_cons] at hcount
      -- More than one digit stands before the point, so no zeros were put there.
      have hnone : d.exponent.natAbs + 1 - (text d.digits).length = 0 := by omega
      obtain ⟨c', s', htext⟩ := List.exists_cons_of_ne_nil (text_ne_nil d.digits)
      have hhead := head_text_ne_zero (hd.digits_pos (by omega)) htext
      rw [padded, hnone, List.replicate_zero, List.nil_append, htext] at h
      cases hlength : (c' :: s').length - d.exponent.natAbs with
      | zero =>
        rw [hlength] at h
        cases h
      | succ k =>
        rw [hlength, List.take_succ_cons] at h
        exact hhead (List.cons_eq_cons.mp h).1

/-- JSON writes literals that its grammar allows. -/
theorem isProper_literal (hd : d.IsNormal) : (literal d).IsProper := by
  unfold literal
  split
  · exact isProper_plainLiteral hd
  · exact
      { whole := fun c hc => digits_text _ c (List.mem_of_mem_take hc)
        whole_ne_nil := by simp [text_ne_nil]
        head := by
          intro c s h
          have hlen := congrArg List.length h
          rw [List.length_take] at hlen
          simp at hlen
          omega
        fraction := fun c hc => digits_text _ c (List.mem_of_mem_drop hc) }

theorem toRat_plainLiteral (d : Decimal) : (plainLiteral d).decimal.toRat = d.toRat := by
  unfold plainLiteral Literal.decimal
  split
  · rename_i hexp
    have hpow : (10 : ℚ) ^ d.exponent = 10 ^ d.exponent.toNat := by
      rw [← zpow_natCast, Int.toNat_of_nonneg hexp]
    change (value (text d.digits ++ List.replicate d.exponent.toNat '0' ++ ['0']) : ℚ) *
      10 ^ (0 - 1 : ℤ) = d.digits * 10 ^ d.exponent
    rw [value_append, value_append, value_text, value_zeros, List.length_replicate, hpow]
    change ((10 ^ 1 * (10 ^ d.exponent.toNat * d.digits + 0) + 0 : ℕ) : ℚ) * 10 ^ (-1 : ℤ) = _
    push_cast
    rw [zpow_neg, zpow_one]
    ring
  · have hlen := length_padded d
    have hexp : (0 : ℤ) - ((padded d).length - ((padded d).length - d.exponent.natAbs) : ℕ) =
        d.exponent := by omega
    rw [toRat, toRat, ofParts, List.take_append_drop, List.length_drop, Option.getD_none, hexp,
      padded, value_append, value_zeros, value_text, Nat.mul_zero, Nat.zero_add]

theorem toRat_literal (d : Decimal) : (literal d).decimal.toRat = d.toRat := by
  unfold literal
  split
  · exact toRat_plainLiteral d
  · have hlen := length_text_pos d.digits
    have hexp : d.power - ((text d.digits).length - 1 : ℕ) = d.exponent := by
      rw [Decimal.power]
      omega
    rw [Literal.decimal, toRat, toRat, ofParts, List.take_append_drop, List.length_drop,
      Option.getD_some, hexp, value_text]

/-- So few digits stand before the point that a word has room for all of them. -/
theorem length_whole_literal_le (hd : d.IsNormal) : (literal d).whole.length ≤ 16 := by
  unfold literal
  split
  · rename_i hplain
    have hpower : (text d.digits).length + d.exponent ≤ 16 := by
      rcases hplain with hzero | ⟨-, hhigh⟩
      · have hd' : d = ⟨0, 0⟩ := hd.resolve_left (by omega)
        rw [hd']
        decide
      · rw [Decimal.power] at hhigh
        omega
    unfold plainLiteral
    split
    · rw [List.length_append, List.length_replicate]
      omega
    · rw [List.length_take, length_padded]
      omega
  · rw [List.length_take]
    omega

end Json

end Milling
