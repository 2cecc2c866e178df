import Milling.Decimal.Shortest
import Milling.Proofs.Decimal.Shortest
import Milling.Proofs.Json.Literal
/-!
Every finite double is written as a number that is read as a finite double.

The reader drops digits beyond 64 bits and rounds in steps, so what it finds may be a neighbour of
what was written, but it never leaves the range of the doubles: below the four greatest ones the
steps cannot add up to an overflow (`isFinite_scaled`), and for these four the text is known.
-/

namespace Milling

open Binary64 Decimal

namespace Json

/-! ### Digits within a word -/

/-- As long as an integer stays within 64 bits, all its digits are taken. -/
theorem extend_of_lt {n : Nat} {s : List Char}
    (h : 10 ^ s.length * n + value s < wordBound) :
    extend n s = (10 ^ s.length * n + value s, []) := by
  induction s generalizing n with
  | nil => simp [extend, value]
  | cons c s ih =>
    have hsplit : 10 ^ (c :: s).length * n + value (c :: s) =
        10 ^ s.length * (10 * n + (c.toNat - '0'.toNat)) + value s := by
      rw [value_cons, List.length_cons, pow_succ]
      ring
    rw [hsplit] at h ⊢
    have hroom : 10 * n + (c.toNat - '0'.toNat) < wordBound :=
      ((Nat.le_mul_of_pos_left _ (by positivity)).trans (Nat.le_add_right _ _)).trans_lt h
    rw [extend, if_pos hroom]
    exact ih h

/-- What is taken is not above the number, and fits a word. -/
theorem extend_bounds {n : Nat} (s : List Char) (hn : n < wordBound) :
    10 ^ (extend n s).2.length * (extend n s).1 ≤ 10 ^ s.length * n + value s ∧
      (extend n s).1 < wordBound ∧ (extend n s).2.length ≤ s.length := by
  induction s generalizing n with
  | nil => exact ⟨Nat.le_add_right _ _, hn, Nat.le_refl _⟩
  | cons c s ih =>
    rw [extend]
    split
    · rename_i hroom
      obtain ⟨hle, hword, hlen⟩ := ih hroom
      refine ⟨hle.trans_eq ?_, hword, hlen.trans (Nat.le_succ _)⟩
      rw [value_cons, List.length_cons, pow_succ]
      ring
    · exact ⟨Nat.le_add_right _ _, hn, Nat.le_refl _⟩

/-- Numbers with few digits before the point become no greater by being read. -/
theorem bounded_le {whole : List Char} (fraction : List Char) (exponent : Int) (hwhole : Digits whole)
    (hlen : whole.length ≤ 16) :
    (bounded whole fraction exponent).toRat ≤ (ofParts whole fraction exponent).toRat ∧
      (bounded whole fraction exponent).digits < wordBound := by
  have hvalue : 10 ^ whole.length * 0 + value whole < wordBound := by
    have hlt := (value_lt hwhole).trans_le (Nat.pow_le_pow_right (by decide) hlen)
    rw [Nat.mul_zero, Nat.zero_add]
    exact hlt.trans (by decide)
  have hextend := extend_of_lt hvalue
  rw [Nat.mul_zero, Nat.zero_add] at hextend hvalue
  obtain ⟨hle, hword, hcount⟩ := extend_bounds fraction hvalue
  obtain ⟨n, dropped, hpair⟩ : ∃ n dropped, extend (value whole) fraction = (n, dropped) :=
    ⟨_, _, rfl⟩
  simp only [hpair] at hle hword hcount
  simp only [bounded, hextend, hpair]
  refine ⟨?_, hword⟩
  have hexp : exponent + (([] : List Char).length : ℕ) - (fraction.length - dropped.length : ℕ) =
      dropped.length + (exponent - fraction.length) := by
    rw [List.length_nil]
    omega
  have hle' : (10 : ℚ) ^ dropped.length * n ≤ value (whole ++ fraction) := by
    rw [value_append]
    exact_mod_cast hle
  rw [toRat, toRat, hexp, ofParts, zpow_add₀ (by norm_num), zpow_natCast, ← mul_assoc,
    mul_comm (n : ℚ)]
  exact mul_le_mul_of_nonneg_right hle' (ten_zpow_pos _).le

/-! ### The double of a decimal -/

def greatest : ℚ := 9007199254740991 * 2 ^ (971 : ℤ)

theorem onGrid_greatest : OnGrid greatest :=
  ⟨9007199254740991, 971, by norm_num, by norm_num, rfl⟩

theorem greatest_lt_limit : greatest < limit := by
  rw [greatest, limit_eq 53]
  exact mul_lt_mul_of_pos_right (by norm_num) (two_zpow_pos _)

/-- What is nearest to a number from zero to the greatest double is finite. -/
theorem IsNearest.value_of_le {x : Float} {v : ℚ} (h : IsNearest x v) (hv : 0 ≤ v)
    (hle : v ≤ greatest) : value? x = some (rounded v) := by
  refine h.value ?_
  rw [abs_of_nonneg (rounded_nonneg hv)]
  exact (onGrid_greatest.rounded_le hle).trans_lt greatest_lt_limit

theorem ten_pow_le_greatest : (10 : ℚ) ^ 308 ≤ greatest := by
  have h : (10 : ℕ) ^ 308 ≤ 9007199254740991 * 2 ^ 971 := by decide +kernel
  have h' : (10 : ℚ) ^ 308 ≤ 9007199254740991 * 2 ^ (971 : ℤ) := by exact_mod_cast h
  exact h'

theorem greatest_lt_ten_pow : greatest < 10 ^ (309 : ℤ) := by
  have h : 9007199254740991 * 2 ^ 971 < (10 : ℕ) ^ 309 := by decide +kernel
  have h' : 9007199254740991 * 2 ^ (971 : ℤ) < (10 : ℚ) ^ (309 : ℤ) := by exact_mod_cast h
  exact h'

/-- Powers of ten up to the greatest are rounded once, and none is below one. -/
theorem value?_power {k : Nat} (hk : k ≤ greatestPower) :
    value? (power k) = some (rounded (10 ^ k)) ∧ 1 ≤ rounded (10 ^ k) := by
  have hone : (1 : ℚ) ≤ 10 ^ k := one_le_pow₀ (by norm_num)
  have hle : (10 : ℚ) ^ k ≤ greatest :=
    (pow_le_pow_right₀ (by norm_num) hk).trans ten_pow_le_greatest
  have hnear := isNearest_toFloat ⟨1, k⟩
  have hrat : (⟨1, k⟩ : Decimal).toRat = 10 ^ k := by
    rw [toRat, Nat.cast_one, one_mul, zpow_natCast]
  rw [hrat] at hnear
  refine ⟨IsNearest.value_of_le hnear (by positivity) hle, ?_⟩
  have hgrid : OnGrid ((1 : ℤ) : ℚ) := onGrid_intCast (by norm_num)
  exact_mod_cast hgrid.le_rounded (by exact_mod_cast hone)

/-- Division by powers of ten stays below what is divided. -/
theorem value?_divided {x : Float} {v : ℚ} (hx : value? x = some v) (hv : 0 ≤ v)
    (hle : v ≤ greatest) (k : Nat) : ∃ w, value? (divided x k) = some w := by
  have hquot : ∀ {x : Float} {v : ℚ} {k : Nat}, value? x = some v → 0 ≤ v → v ≤ greatest →
      k ≤ greatestPower → ∃ w, value? (x / power k) = some w ∧ 0 ≤ w ∧ w ≤ greatest := by
    intro x v k hx hv hle hk
    obtain ⟨hpow, hone⟩ := value?_power hk
    have hpos : 0 < rounded (10 ^ k) := one_pos.trans_le hone
    have hfrac : 0 ≤ v / rounded (10 ^ k) := div_nonneg hv hpos.le
    have hfrac' : v / rounded (10 ^ k) ≤ greatest := (div_le_self hv hone).trans hle
    exact ⟨_, IsNearest.value_of_le (isNearest_div hx hpow hpos.ne') hfrac hfrac',
      rounded_nonneg hfrac, onGrid_greatest.rounded_le hfrac'⟩
  fun_induction divided x k generalizing v with
  | case1 x k hk =>
    obtain ⟨w, hw, -⟩ := hquot hx hv hle hk
    exact ⟨w, hw⟩
  | case2 x k hk hzero => exact ⟨v, hx⟩
  | case3 x k hk hzero ih =>
    obtain ⟨w, hw, hw0, hwle⟩ := hquot hx hv hle (Nat.le_refl _)
    exact ih hw hw0 hwle

/-- From one on, rounding adds at most one part in `2 ^ 53`. -/
theorem rounded_le_mul {v : ℚ} (hv : 1 ≤ v) : rounded v ≤ v * (1 + 1 / 2 ^ 53) := by
  have hpos : 0 < v := one_pos.trans_le hv
  have hgrid : gridExponent v ≠ -1074 := by
    intro h
    have hlt := lt_two_zpow_gridExponent hpos
    rw [h] at hlt
    have hsmall : (2 : ℚ) ^ 53 * 2 ^ (-1074 : ℤ) ≤ 1 := by
      calc (2 : ℚ) ^ 53 * 2 ^ (-1074 : ℤ) = 2 ^ (-1021 : ℤ) := by
            rw [← zpow_natCast, ← zpow_add₀ two_ne_zero]
            norm_num
        _ ≤ 2 ^ (0 : ℤ) := two_zpow_le (by norm_num)
        _ = 1 := zpow_zero _
    linarith
  have hstep := le_of_gridExponent_ne hpos hgrid
  have herr := (abs_le.mp (abs_sub_rounded_le v)).1
  rw [mul_add, mul_one, mul_one_div]
  have hhalf : (2 : ℚ) ^ gridExponent v / 2 ≤ v / 2 ^ 53 := by
    rw [div_le_div_iff₀ two_pos (by norm_num)]
    linarith
  linarith

/-- The fourth of the doubles, counted down from the greatest. -/
def fourth : ℚ := 9007199254740988 * 2 ^ (971 : ℤ)

theorem onGrid_fourth : OnGrid fourth :=
  ⟨9007199254740988, 971, by norm_num, by norm_num, rfl⟩

/-- Up to the fourth double there is room for two roundings before the greatest. -/
theorem fourth_mul_le : fourth * ((1 + 1 / 2 ^ 53) * (1 + 1 / 2 ^ 53)) ≤ greatest := by
  have h : (9007199254740988 : ℚ) * ((1 + 1 / 2 ^ 53) * (1 + 1 / 2 ^ 53)) ≤ 9007199254740991 := by
    norm_num
  calc fourth * ((1 + 1 / 2 ^ 53) * (1 + 1 / 2 ^ 53))
      = 9007199254740988 * ((1 + 1 / 2 ^ 53) * (1 + 1 / 2 ^ 53)) * 2 ^ (971 : ℤ) := by
        rw [fourth, mul_right_comm]
    _ ≤ greatest := mul_le_mul_of_nonneg_right h (two_zpow_pos _).le

theorem value?_ofNat {n : Nat} (hn : n < wordBound) :
    value? (Float.ofNat n) = some (rounded n) ∧ (n : ℚ) ≤ greatest := by
  have hword : wordBound ≤ 10 ^ 308 := by decide +kernel
  have hle : (n : ℚ) ≤ greatest := by
    refine le_trans ?_ ten_pow_le_greatest
    exact_mod_cast (hn.le.trans hword)
  exact ⟨IsNearest.value_of_le (isNearest_ofNat n) (Nat.cast_nonneg n) hle, hle⟩

/-- Three roundings do not lead out of range below the fourth double. -/
theorem isFinite_scaled {d : Decimal} (hword : d.digits < wordBound) (hval : d.toRat < fourth) :
    (scaled d).isFinite = true := by
  obtain ⟨hx, hxle⟩ := value?_ofNat hword
  have hx0 : (0 : ℚ) ≤ d.digits := Nat.cast_nonneg _
  unfold scaled
  dsimp only
  split
  · obtain ⟨w, hw⟩ := value?_divided hx (rounded_nonneg hx0) (onGrid_greatest.rounded_le hxle)
      d.exponent.natAbs
    exact isFinite_of_value hw
  rename_i hneg
  obtain ⟨k, hk⟩ := Int.eq_ofNat_of_zero_le (not_lt.mp hneg)
  have hrat : d.toRat = d.digits * 10 ^ k := by rw [toRat, hk, zpow_natCast]
  rw [hk, Int.toNat_natCast]
  split
  · rename_i hle
    obtain ⟨hpow, hone⟩ := value?_power (k := k) (by omega)
    have hpos : 0 ≤ rounded d.digits * rounded (10 ^ k) :=
      mul_nonneg (rounded_nonneg hx0) (zero_le_one.trans hone)
    refine isFinite_of_value (IsNearest.value_of_le (isNearest_mul hx hpow) hpos ?_)
    rcases Nat.eq_zero_or_pos d.digits with hzero | hdigits
    · rw [hzero, Nat.cast_zero, rounded_zero, zero_mul]
      exact (by positivity : (0 : ℚ) ≤ 10 ^ 308).trans ten_pow_le_greatest
    · have hone' : (1 : ℚ) ≤ d.digits := by exact_mod_cast hdigits
      have hten : (1 : ℚ) ≤ 10 ^ k := one_le_pow₀ (by norm_num)
      calc rounded d.digits * rounded (10 ^ k)
          ≤ d.digits * (1 + 1 / 2 ^ 53) * (10 ^ k * (1 + 1 / 2 ^ 53)) :=
            mul_le_mul (rounded_le_mul hone') (rounded_le_mul hten) (zero_le_one.trans hone)
              (by positivity)
        _ = d.toRat * ((1 + 1 / 2 ^ 53) * (1 + 1 / 2 ^ 53)) := by rw [hrat]; ring
        _ ≤ fourth * ((1 + 1 / 2 ^ 53) * (1 + 1 / 2 ^ 53)) :=
          mul_le_mul_of_nonneg_right hval.le (by positivity)
        _ ≤ greatest := fourth_mul_le
  · rename_i hlarge
    split
    · exact isFinite_of_value hx
    · -- Such a power of ten alone is above every double.
      rename_i hdigits
      have hone : (1 : ℚ) ≤ d.digits := by exact_mod_cast Nat.pos_of_ne_zero hdigits
      have hten : (10 : ℚ) ^ (309 : ℤ) ≤ 10 ^ k := by
        rw [← zpow_natCast]
        exact zpow_le_zpow_right₀ (by norm_num) (by unfold greatestPower at hlarge; omega)
      have habove : (10 : ℚ) ^ k ≤ d.toRat := by
        rw [hrat]
        exact le_mul_of_one_le_left (by positivity) hone
      have hbelow : fourth ≤ greatest :=
        mul_le_mul_of_nonneg_right (by norm_num) (two_zpow_pos _).le
      linarith [greatest_lt_ten_pow]

/-! ### The number that is read -/

/-- The decimal that is found in the text of a decimal. -/
def found (d : Decimal) : Decimal :=
  bounded (literal d).whole (literal d).fraction ((literal d).exponent.getD 0)

/-- Dropping digits never makes a decimal greater, and leaves one of 64 bits. -/
theorem found_le {d : Decimal} (hd : d.IsNormal) :
    (found d).toRat ≤ d.toRat ∧ (found d).digits < wordBound := by
  have hfound := bounded_le (literal d).fraction ((literal d).exponent.getD 0)
    (isProper_literal hd).whole (length_whole_literal_le hd)
  rw [← toRat_literal d]
  exact hfound

/-- The four greatest doubles, each by its place below the greatest. -/
def great (k : Fin 4) : Float :=
  Float.ofBits (0x7fefffffffffffff - k.val.toUInt64)

/-- The four greatest doubles are read as finite numbers; these are computed, since the bound on
roundings does not cover them. -/
theorem isFinite_great : ∀ k : Fin 4,
    decode? (great k) = some ⟨false, 9007199254740991 - k, 971⟩ ∧
      (ofFloat? false (great k)).any (fun d => (scaled (found d)).isFinite) = true := by
  -- One evaluation for each double needs less memory than one for all.
  intro k
  match k with
  | 0 => decide +kernel
  | 1 => decide +kernel
  | 2 => decide +kernel
  | 3 => decide +kernel

theorem decode?_bounds {x : Float} {e : Exact} (h : decode? x = some e) :
    e.mantissa < 2 ^ 53 ∧ e.exponent ≤ 971 := by
  obtain ⟨hc, hr⟩ := canonical_unpack x.toModel
  unfold decode? at h
  cases hu : x.toModel.unpack with
  | notANumber =>
    rw [hu] at h
    cases h
  | infinity s =>
    rw [hu] at h
    cases h
  | zero s =>
    rw [hu] at h
    cases h
    exact ⟨by norm_num, by norm_num⟩
  | finite s m k hm =>
    rw [hu] at h hc hr
    cases h
    exact ⟨hc.1, hr⟩

/-- No double but the four greatest is as great as the fourth of them. -/
theorem eq_great_of_le {x : Float} {e : Exact} (h : decode? x = some e)
    (hle : fourth ≤ e.mantissa * 2 ^ e.exponent) :
    ∃ k : Fin 4, e = ⟨e.negative, 9007199254740991 - k, 971⟩ := by
  obtain ⟨hmantissa, hexponent⟩ := decode?_bounds h
  have hexp : e.exponent = 971 := by
    by_contra hne
    have hm : (e.mantissa : ℚ) ≤ 2 ^ 53 := by exact_mod_cast hmantissa.le
    have hlt : (e.mantissa : ℚ) * 2 ^ e.exponent < fourth := by
      calc (e.mantissa : ℚ) * 2 ^ e.exponent ≤ 2 ^ 53 * 2 ^ e.exponent :=
            mul_le_mul_of_nonneg_right hm (two_zpow_pos _).le
        _ ≤ 2 ^ 53 * 2 ^ (970 : ℤ) :=
          mul_le_mul_of_nonneg_left (two_zpow_le (by omega)) (by norm_num)
        _ = 4503599627370496 * 2 ^ (971 : ℤ) := by
          rw [show (971 : ℤ) = 970 + 1 from rfl, zpow_add_one₀ two_ne_zero]
          ring
        _ < fourth := mul_lt_mul_of_pos_right (by norm_num) (two_zpow_pos _)
    exact absurd hle hlt.not_ge
  rw [hexp, fourth, mul_le_mul_iff_of_pos_right (two_zpow_pos _)] at hle
  have hlow : 9007199254740988 ≤ e.mantissa := by exact_mod_cast hle
  refine ⟨⟨9007199254740991 - e.mantissa, by omega⟩, ?_⟩
  change e = ⟨e.negative, 9007199254740991 - (9007199254740991 - e.mantissa), 971⟩
  rw [Nat.sub_sub_self (by omega), ← hexp]

/-- The text of a finite double is read as a finite double. -/
theorem isFinite_found {x : Float} {v : ℚ} {d : Decimal} (hx : value? x = some v)
    (hd : ofFloat? false x = some d) : (scaled (found d)).isFinite = true := by
  obtain ⟨d', hd', hnormal, hround⟩ := exists_ofFloat? hx false
  obtain rfl : d' = d := Option.some_inj.mp (hd'.symm.trans hd)
  obtain ⟨e, he, hv⟩ := decode?_of_value hx
  rcases lt_or_ge |v| fourth with hlt | hge
  · have hbelow : d'.toRat < fourth := by
      by_contra hnot
      have hround' := onGrid_fourth.le_rounded (not_lt.mp hnot)
      rw [hround] at hround'
      exact absurd hlt hround'.not_gt
    obtain ⟨hle, hword⟩ := found_le hnormal
    exact isFinite_scaled hword (hle.trans_lt hbelow)
  · obtain ⟨k, hk⟩ := eq_great_of_le he (hv ▸ hge)
    obtain ⟨hgreat, hfinite⟩ := isFinite_great k
    rw [hk] at he
    have hsame := ofFloat?_eq_of_decode? he hgreat false
    rw [← hsame, hd, Option.any_some] at hfinite
    exact hfinite

/-- The double that the text of a finite one carries to its reader. -/
def carried (x : Float) : Float :=
  match ofFloat? numberLayout.halfUp x with
  | some d => if isMinus x then -scaled (found d) else scaled (found d)
  | none => x

/-- What is read of a literal is the decimal that is found in it, with its sign. -/
theorem datum_literal (d : Decimal) (negative : Bool) :
    (literal d).datum negative = real negative (found d) := by
  have hparts : ¬ ((literal d).fraction = [] ∧ (literal d).exponent = none) := by
    rintro ⟨hfraction, hexponent⟩
    unfold literal at hfraction hexponent
    split at hfraction
    · exact fraction_plainLiteral_ne_nil d hfraction
    · rename_i hscientific
      rw [if_neg hscientific] at hexponent
      cases hexponent
  rw [Literal.datum, if_neg hparts, found]

/-- The text of a finite double is read as the double that it carries. -/
theorem spanNumber_write {x : Float} (hx : x.isFinite = true) {rest : List Char}
    (hrest : Stops rest) :
    spanNumber ((numberLayout.write x).toList ++ rest) = some (.real (carried x), rest) := by
  obtain ⟨v, hv⟩ := (isFinite_iff x).mp hx
  obtain ⟨d, hd, hnormal, -⟩ := exists_ofFloat? hv numberLayout.halfUp
  have hwrite : (numberLayout.write x).toList =
      (if isMinus x then ['-'] else []) ++ (literal d).chars := by
    rw [Layout.write, hd, ← magnitude_eq_chars]
    exact String.toList_ofList
  have hreal : real (isMinus x) (found d) = .real (carried x) := by
    rw [real, carried, hd]
    exact if_pos (isFinite_found hv hd)
  rw [hwrite, List.append_assoc, spanNumber_chars (isProper_literal hnormal) _ hrest,
    datum_literal, hreal]

end Json

end Milling
