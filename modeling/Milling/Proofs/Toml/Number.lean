import Milling.Proofs.Binary64.Magnitude
import Milling.Proofs.Decimal.Shortest
import Milling.Proofs.Json.Literal
import Milling.Toml.Writer
/-!
Every double comes back from its text in TOML.

A finite double is written as a decimal without exponent that is rounded to its magnitude, so what
is read is that magnitude with the sign of the double. Infinities and NaN have words of their own
(`spanNumber_write`). None of these texts is taken for a date or a time (`spanDateTime_write`).
-/

namespace Milling

open Binary64 Decimal

namespace Toml

open Json (Literal plainLiteral)

/-! ### The double that is read -/

/-- A decimal that is rounded to the magnitude of a double reads back to it. -/
theorem toFloat_eq_abs {x : Float} {v : ℚ} {d : Decimal} (hx : value? x = some v) (hne : v ≠ 0)
    (hd : rounded d.toRat = |v|) : d.toFloat = x.abs := by
  refine eq_abs_of_value hx hne ?_
  rw [← hd]
  refine (isNearest_toFloat d).value ?_
  rw [hd, abs_abs]
  exact abs_lt_limit hx

theorem ofFloat?_of_value_zero {x : Float} (hx : value? x = some 0) (halfUp : Bool) :
    ofFloat? halfUp x = some ⟨0, 0⟩ := by
  obtain ⟨e, he, hv⟩ := decode?_of_value hx
  have hzero : e.mantissa = 0 := by
    have hprod := hv.symm.trans abs_zero
    rcases mul_eq_zero.mp hprod with h | h
    · exact_mod_cast h
    · exact absurd h (two_zpow_pos _).ne'
  rw [ofFloat?, he, Option.map_some, if_pos hzero]

theorem abs_of_value_zero {x : Float} (hx : value? x = some 0) : x.abs = 0.0 := by
  apply eq_of_unpack
  rw [unpack_abs]
  rcases unpack_of_value hx with ⟨s, hu, -⟩ | ⟨s, m, e, hm, hu, hv⟩
  · rw [hu]
    rfl
  · have hpos := magnitude_pos hm e
    cases s <;> rw [signed] at hv <;> linarith

theorem toFloat_of_digits_zero (exponent : Int) : (⟨0, exponent⟩ : Decimal).toFloat = 0.0 := by
  have hnormal : (⟨0, exponent⟩ : Decimal).normal = ⟨0, 0⟩ := by
    rw [normal, trimmed, dif_pos rfl]
  rw [toFloat, hnormal]
  exact eq_of_unpack rfl

/-- The digits of a finite double read back to its magnitude. -/
theorem toFloat_plainLiteral {x : Float} {d : Decimal} (hx : x.isFinite = true)
    (hd : ofFloat? numberLayout.halfUp x = some d) :
    (plainLiteral d).decimal.toFloat = x.abs := by
  obtain ⟨v, hv⟩ := (isFinite_iff x).mp hx
  by_cases hzero : v = 0
  · subst hzero
    obtain rfl : d = ⟨0, 0⟩ :=
      Option.some_inj.mp (hd.symm.trans (ofFloat?_of_value_zero hv _))
    rw [abs_of_value_zero hv]
    exact toFloat_of_digits_zero _
  · obtain ⟨d', hd', -, hround⟩ := exists_ofFloat? hv numberLayout.halfUp
    obtain rfl : d' = d := Option.some_inj.mp (hd'.symm.trans hd)
    refine toFloat_eq_abs hv hzero ?_
    rw [Json.toRat_plainLiteral, hround]

/-! ### Digits -/

/-- Digits without underscores are taken up to their end. -/
theorem spanGrouped_append {s t : List Char} (hs : Digits s)
    (ht : ∀ c ∈ t.head?, c.isDigit = false ∧ c ≠ '_') (started : Bool) :
    spanGrouped Char.isDigit started (s ++ t) = (s, t) := by
  induction s generalizing started with
  | nil =>
    cases t with
    | nil => rfl
    | cons c t =>
      obtain ⟨hdigit, hscore⟩ := ht c rfl
      rw [List.nil_append, spanGrouped, if_neg (by simp [hdigit])]
      exact fun _ _ h => absurd h hscore
  | cons c s ih =>
    have hdigit := hs c List.mem_cons_self
    have hscore : c ≠ '_' := by
      rintro rfl
      exact absurd hdigit (by decide)
    rw [List.cons_append, spanGrouped, if_pos hdigit,
      ih fun d hd => hs d (List.mem_cons_of_mem c hd)]
    exact fun _ _ h => absurd h hscore

variable {l : Literal} {rest : List Char}

/-- The digits before the point are taken, since no zero stands before others. -/
theorem spanWhole_literal (h : l.IsProper) (t : List Char) :
    spanWhole (l.whole ++ '.' :: t) = (l.whole, '.' :: t) := by
  obtain ⟨c, s, hwhole⟩ := List.exists_cons_of_ne_nil h.whole_ne_nil
  have hspan := spanGrouped_append (t := '.' :: t) h.whole (by simp) false
  rw [hwhole] at hspan ⊢
  by_cases hc : c = '0'
  · subst hc
    cases s with
    | nil => rfl
    | cons c s => exact absurd hwhole (h.head c s)
  · rw [List.cons_append] at hspan ⊢
    rw [spanWhole, hspan]
    exact fun _ heq => hc (List.cons_eq_cons.mp heq).1

theorem spanDigits_line {s : List Char} (hs : Digits s) (hne : s ≠ []) :
    spanDigits (s ++ '\n' :: rest) = some (s, '\n' :: rest) := by
  rw [spanDigits, spanGrouped_append hs (by simp)]
  split
  · rename_i heq
    exact absurd (Prod.mk.inj heq).1 hne
  · rfl

/-- A literal with a point is read up to the end of its line. -/
theorem spanDecimal_literal (h : l.IsProper) (hne : l.fraction ≠ []) (negative : Bool) :
    spanDecimal negative (l.whole ++ '.' :: (l.fraction ++ '\n' :: rest)) =
      let x := withSign negative (ofParts l.whole l.fraction 0).toFloat
      if x == 1.0 / 0.0 then none else some (.real x, '\n' :: rest) := by
  have hfraction : spanFraction ('.' :: (l.fraction ++ '\n' :: rest)) =
      some (l.fraction, true, '\n' :: rest) := by
    rw [spanFraction, spanDigits_line h.fraction hne, Option.map_some]
  have hexponent : spanExponent ('\n' :: rest) = some (0, false, '\n' :: rest) := rfl
  unfold spanDecimal
  rw [spanWhole_literal h]
  split
  · rename_i heq
    exact absurd (Prod.mk.inj heq).1 h.whole_ne_nil
  · rename_i heq
    obtain ⟨rfl, rfl⟩ := Prod.mk.inj heq
    rw [hfraction]
    simp only [Option.bind_eq_bind, Option.bind_some, hexponent]
    rfl

/-- A sign and a literal are read as a number in base ten. -/
theorem spanNumber_literal (h : l.IsProper) (negative : Bool) (t : List Char) :
    spanNumber ((if negative then ['-'] else []) ++ (l.whole ++ '.' :: t)) =
      spanDecimal negative (l.whole ++ '.' :: t) := by
  obtain ⟨c, s, hwhole, hdigit⟩ := h.exists_cons
  have hne : ∀ d : Char, d.isDigit = false → c ≠ d := by
    rintro d hd rfl
    exact Bool.false_ne_true (hd.symm.trans hdigit)
  have hminus := h.head_signed negative (by decide : '-'.isDigit = false) ('.' :: t)
  have hplus := h.head_signed negative (by decide : '+'.isDigit = false) ('.' :: t)
  have htail : (if (negative && '-' == '-' || negative && '+' == '-') = true then
      ((if negative then ['-'] else []) ++ (l.whole ++ '.' :: t)).tail
      else (if negative then ['-'] else []) ++ (l.whole ++ '.' :: t)) = l.whole ++ '.' :: t := by
    cases negative <;> rfl
  unfold spanNumber
  dsimp only
  rw [hminus, hplus, htail]
  split
  · rename_i heq
    rw [hwhole] at heq
    exact absurd (List.cons_eq_cons.mp heq).1 (hne 'i' rfl)
  · rename_i heq
    rw [hwhole] at heq
    exact absurd (List.cons_eq_cons.mp heq).1 (hne 'n' rfl)
  · rename_i c' rest heq
    -- A zero stands alone before the point, and a point is no letter for a base.
    rw [hwhole] at heq
    obtain ⟨rfl, htail⟩ := List.cons_eq_cons.mp heq
    cases s with
    | cons d s => exact absurd hwhole (h.head d s)
    | nil =>
      obtain ⟨rfl, rfl⟩ := List.cons_eq_cons.mp htail
      rw [hwhole]
      cases negative <;> rfl
  · cases negative <;> rfl

/-! ### Numbers in a line -/

/-- The text of a finite double. -/
theorem write_eq {x : Float} {d : Decimal} (hd : ofFloat? numberLayout.halfUp x = some d)
    (rest : List Char) :
    (numberLayout.write x).toList ++ rest = (if isMinus x then ['-'] else []) ++
      ((plainLiteral d).whole ++ '.' :: ((plainLiteral d).fraction ++ rest)) := by
  rw [Layout.write, hd]
  change (String.ofList (_ ++ numberLayout.plain d)).toList ++ _ = _
  rw [String.toList_ofList, Json.plain_eq rfl, List.append_assoc, List.append_assoc,
    List.cons_append]

/-- The shortest decimal of a double, with its sign, is read as this double. -/
theorem withSign_plainLiteral {x : Float} {d : Decimal} (hx : x.isFinite = true)
    (hd : ofFloat? numberLayout.halfUp x = some d) :
    withSign (isMinus x) (ofParts (plainLiteral d).whole (plainLiteral d).fraction 0).toFloat =
      x := by
  obtain ⟨v, hv⟩ := (isFinite_iff x).mp hx
  have hmagnitude := toFloat_plainLiteral hx hd
  rw [Literal.decimal, Json.exponent_plainLiteral, Option.getD_none] at hmagnitude
  rw [hmagnitude, withSign_abs (isNaN_of_value hv)]

theorem write_infinity : (numberLayout.write (1.0 / 0.0)).toList = ['i', 'n', 'f'] := by
  decide +kernel

theorem write_neg_infinity :
    (numberLayout.write (-(1.0 / 0.0))).toList = ['-', 'i', 'n', 'f'] := by
  decide +kernel

theorem write_nan : (numberLayout.write (0.0 / 0.0)).toList = ['n', 'a', 'n'] := by
  decide +kernel

/-- A number is read back as it was written, up to the end of its line. -/
theorem spanNumber_write (x : Float) (rest : List Char) :
    spanNumber ((numberLayout.write x).toList ++ '\n' :: rest) = some (.real x, '\n' :: rest) := by
  cases hx : x.isFinite with
  | true =>
    obtain ⟨v, hv⟩ := (isFinite_iff x).mp hx
    obtain ⟨d, hd, hnormal, -⟩ := exists_ofFloat? hv numberLayout.halfUp
    have hproper := Json.isProper_plainLiteral hnormal
    rw [write_eq hd, spanNumber_literal hproper,
      spanDecimal_literal hproper (Json.fraction_plainLiteral_ne_nil d)]
    dsimp only
    rw [withSign_plainLiteral hx hd, beq_infinity hx, if_neg Bool.false_ne_true]
  | false =>
    rcases eq_of_not_isFinite hx with rfl | rfl | rfl
    · rw [write_infinity]
      rfl
    · rw [write_neg_infinity]
      rfl
    · rw [write_nan]
      rfl

/-- What a number starts with. -/
theorem head_write (x : Float) : ∃ c s, (numberLayout.write x).toList = c :: s ∧
    (c.isDigit = true ∨ c = '-' ∨ c = 'i' ∨ c = 'n') := by
  cases hx : x.isFinite with
  | true =>
    obtain ⟨v, hv⟩ := (isFinite_iff x).mp hx
    obtain ⟨d, hd, hnormal, -⟩ := exists_ofFloat? hv numberLayout.halfUp
    have hproper := Json.isProper_plainLiteral hnormal
    obtain ⟨c, s, hwhole, hdigit⟩ := hproper.exists_cons
    have hwrite := write_eq hd []
    rw [List.append_nil, hwhole] at hwrite
    rw [hwrite]
    cases isMinus x with
    | true => exact ⟨'-', _, rfl, Or.inr (Or.inl rfl)⟩
    | false => exact ⟨c, _, rfl, Or.inl hdigit⟩
  | false =>
    rcases eq_of_not_isFinite hx with rfl | rfl | rfl
    · exact ⟨_, _, write_infinity, by decide⟩
    · exact ⟨_, _, write_neg_infinity, by decide⟩
    · exact ⟨_, _, write_nan, by decide⟩

/-! ### Dates and times -/

/-- A field is digits, so before its separator stands a digit, and nothing else. -/
theorem head_of_spanField {count least greatest n : Nat} {s t u : List Char} {c : Char}
    (hcount : 0 < count) (hc : c.isDigit = false) (h : spanField count least greatest s = some (n, t))
    (ht : after? c t = some u) :
    (∃ d ∈ s.head?, d.isDigit = true) ∧ (s.dropWhile Char.isDigit).head? = some c := by
  unfold spanField at h
  dsimp only at h
  split at h
  · rename_i hfield
    simp only [Bool.and_eq_true, decide_eq_true_eq, List.all_eq_true] at hfield
    obtain ⟨⟨⟨hlength, hdigits⟩, -⟩, -⟩ := hfield
    obtain ⟨-, rfl⟩ := Prod.mk.inj (Option.some_inj.mp h)
    cases hrest : s.drop count with
    | nil =>
      rw [hrest] at ht
      cases ht
    | cons d t =>
      rw [hrest, after?] at ht
      split at ht
      · rename_i heq
        obtain rfl := beq_iff_eq.mp heq
        have hsplit : s = s.take count ++ d :: t := by rw [← hrest, List.take_append_drop]
        refine ⟨?_, ?_⟩
        · obtain ⟨first, more, htake⟩ := List.exists_cons_of_length_pos (hlength ▸ hcount)
          refine ⟨first, ?_, hdigits first (htake ▸ List.mem_cons_self)⟩
          rw [hsplit, htake]
          rfl
        · rw [hsplit, List.dropWhile_append_of_pos hdigits, List.dropWhile_cons_of_neg (by simp [hc])]
          rfl
      · cases ht
  · cases h

/-- What does not start with digits, or has another character after them than a date or a time has,
is neither. -/
theorem spanDateTime_eq_none {s : List Char} (h : (∀ d ∈ s.head?, d.isDigit = false) ∨
    ∀ c ∈ (s.dropWhile Char.isDigit).head?, c ≠ '-' ∧ c ≠ ':') : spanDateTime s = none := by
  have hnot : ∀ {count least greatest n : Nat} {t u : List Char} {c : Char}, 0 < count →
      (c = '-' ∨ c = ':') → spanField count least greatest s = some (n, t) →
      after? c t = some u → False := by
    intro count least greatest n t u c hcount hc hfield hafter
    obtain ⟨⟨d, hd, hdigit⟩, hhead⟩ :=
      head_of_spanField hcount (by rcases hc with rfl | rfl <;> rfl) hfield hafter
    rcases h with h | h
    · exact Bool.false_ne_true ((h d hd).symm.trans hdigit)
    · rcases hc with rfl | rfl
      · exact (h _ hhead).1 rfl
      · exact (h _ hhead).2 rfl
  have hdate : afterDate? s = none := by
    rw [Option.eq_none_iff_forall_ne_some]
    intro t ht
    simp only [afterDate?, Option.bind_eq_bind, Option.bind_eq_some_iff] at ht
    obtain ⟨⟨year, rest⟩, hyear, rest', hafter, -⟩ := ht
    exact hnot (by decide) (Or.inl rfl) hyear hafter
  have htime : afterTime? s = none := by
    rw [Option.eq_none_iff_forall_ne_some]
    intro t ht
    simp only [afterTime?, Option.bind_eq_bind, Option.bind_eq_some_iff] at ht
    obtain ⟨⟨hour, rest⟩, hhour, rest', hafter, -⟩ := ht
    exact hnot (by decide) (Or.inr rfl) hhour hafter
  rw [spanDateTime, afterDateTime?, hdate]
  dsimp only
  rw [htime, Option.map_none]

/-- The text of a number is no date and no time. -/
theorem spanDateTime_write (x : Float) (rest : List Char) :
    spanDateTime ((numberLayout.write x).toList ++ rest) = none := by
  cases hx : x.isFinite with
  | true =>
    obtain ⟨v, hv⟩ := (isFinite_iff x).mp hx
    obtain ⟨d, hd, hnormal, -⟩ := exists_ofFloat? hv numberLayout.halfUp
    rw [write_eq hd]
    cases isMinus x with
    | true =>
      refine spanDateTime_eq_none (Or.inl ?_)
      rintro c ⟨⟩
      rfl
    | false =>
      refine spanDateTime_eq_none (Or.inr ?_)
      rw [if_neg Bool.false_ne_true, List.nil_append,
        List.dropWhile_append_of_pos (Json.isProper_plainLiteral hnormal).whole]
      rintro c ⟨⟩
      decide
  | false =>
    refine spanDateTime_eq_none (Or.inl ?_)
    rcases eq_of_not_isFinite hx with rfl | rfl | rfl
    · rw [write_infinity]
      rintro c ⟨⟩
      rfl
    · rw [write_neg_infinity]
      rintro c ⟨⟩
      rfl
    · rw [write_nan]
      rintro c ⟨⟩
      rfl

end Toml

end Milling
