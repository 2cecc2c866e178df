import Mathlib.Tactic.Common
import Milling.Toml.Writer
/-!
Every string comes back from its text in TOML.

The writer takes the first of four forms that fits, and in each of them the reader finds the string
again (`spanString_quoted`). In quotes on several lines the first three quotes in a row close the
string; the writer never lets three of them stand before its end, and of those that stand at the end
up to two belong to the string.
-/

namespace Milling.Toml

/-! ### Characters in double quotes -/

/-- The text stands for the character in double quotes, on one line or on several: as it is, or as
an escape. -/
inductive Stands (several : Bool) : Char → List Char → Prop
  | plain {c : Char} : isPlain c = true ∨ (several = true ∧ c = '\n') → c ≠ '"' → c ≠ '\\' →
      Stands several c [c]
  | escaped {c e : Char} {s : List Char} : e ∉ [' ', '\t', '\r', '\n'] →
      (∀ rest, spanEscape (e :: s ++ rest) = some (c, rest)) → Stands several c ('\\' :: e :: s)

theorem hexChar?_control : ∀ n : Fin 128,
    Text.hexChar? ['0', '0', (Nat.digitChar (n / 16)).toUpper, (Nat.digitChar (n % 16)).toUpper] =
      some (Char.ofNat n) := by
  decide

theorem toNat_lt_of_isControl {c : Char} (h : isControl c = true) : c.toNat < 128 := by
  simp only [isControl, isPlain, Bool.and_eq_true, Bool.not_eq_true', Bool.or_eq_false_iff,
    Bool.and_eq_false_iff, decide_eq_false_iff_not, bne_eq_false_iff_eq] at h
  obtain ⟨⟨-, hlow | rfl⟩, -⟩ := h
  · omega
  · decide

/-- The escape of a control character is read as this character. -/
theorem spanEscape_control {c : Char} (h : isControl c = true) (rest : List Char) :
    spanEscape ('u' :: '0' :: '0' :: [(Nat.digitChar (c.toNat / 16)).toUpper,
      (Nat.digitChar (c.toNat % 16)).toUpper] ++ rest) = some (c, rest) := by
  have hhex := hexChar?_control ⟨c.toNat, toNat_lt_of_isControl h⟩
  rw [Char.ofNat_toNat] at hhex
  simp only [List.cons_append, List.nil_append, spanEscape, beq_self_eq_true, if_true,
    List.length_cons, List.take_succ_cons, List.take_zero, List.drop_succ_cons, List.drop_zero]
  rw [if_neg (by decide), if_neg (by omega), hhex, Option.map_some]

/-- An escape stands for its character. -/
theorem stands_escape {several : Bool} {c : Char} (hquote : c ≠ '"')
    (hend : several = true ∨ c ≠ '\n') : Stands several c (escape c) := by
  unfold escape
  split
  iterate 5 exact .escaped (by decide) fun _ => rfl
  rename_i hbackslash
  split
  · rename_i hcontrol
    exact .escaped (by decide) (spanEscape_control hcontrol)
  · rename_i hplain
    refine .plain ?_ hquote hbackslash
    by_cases hc : c = '\n'
    · exact Or.inr ⟨hend.resolve_right fun hne => hne hc, hc⟩
    · exact Or.inl (by simpa [isControl, hc] using hplain)

theorem Stands.length_pos {several : Bool} {c : Char} {u : List Char} (h : Stands several c u) :
    0 < u.length := by
  cases h <;> exact Nat.succ_pos _

theorem Stands.head_append {several : Bool} {c : Char} {u : List Char} (h : Stands several c u)
    (t : List Char) : (u ++ t).head? ≠ some '"' := by
  cases h with
  | plain _ hquote _ => exact fun heq => hquote (Option.some_inj.mp heq)
  | escaped => exact fun heq => absurd (Option.some_inj.mp heq) (by decide)

theorem ne_lineEnd_of_isPlain {c : Char} (h : isPlain c = true) : c ≠ '\n' ∧ c ≠ '\r' := by
  constructor <;> rintro rfl <;> exact absurd h (by decide)

/-- What stands for a character on one line starts with no line end. -/
theorem Stands.ne_lineEnd {c d : Char} {u t : List Char} (h : Stands false c u)
    (hd : d ∈ (u ++ t).head?) : d ≠ '\n' ∧ d ≠ '\r' := by
  cases h with
  | plain hplain _ _ =>
    cases hd
    exact ne_lineEnd_of_isPlain (hplain.resolve_right fun h => Bool.false_ne_true h.1)
  | escaped =>
    cases hd
    decide

/-! ### One line -/

variable {rest : List Char}

/-- What stands for a character in double quotes is read as this character. -/
theorem spanBasic_stands {c : Char} {u : List Char} (h : Stands false c u) (seen : List Char)
    (budget : Nat) : spanBasic seen (budget + 1) (u ++ rest) = spanBasic (c :: seen) budget rest := by
  cases h with
  | plain hplain hquote hbackslash =>
    have hplain' : isPlain c = true := hplain.resolve_right fun h => Bool.false_ne_true h.1
    rw [List.singleton_append, spanBasic, if_pos hplain']
    · exact hquote
    · exact hbackslash
  | escaped hblank hescape =>
    rw [List.cons_append, spanBasic, hescape]

/-- How a character stands in double quotes on one line. -/
theorem stands_line (c : Char) : Stands false c
    (if c == '"' then ['\\', '"'] else if c == '\n' then ['\\', 'n'] else escape c) := by
  split
  · rename_i h
    obtain rfl := beq_iff_eq.mp h
    exact .escaped (by decide) fun _ => rfl
  · rename_i hquote
    split
    · rename_i h
      obtain rfl := beq_iff_eq.mp h
      exact .escaped (by decide) fun _ => rfl
    · rename_i hend
      exact stands_escape (fun h => hquote (beq_iff_eq.mpr h))
        (Or.inr fun h => hend (beq_iff_eq.mpr h))

/-- A string on one line is read up to its closing quote. -/
theorem spanBasic_escapeLine (s seen : List Char) (budget : Nat) (h : s.length < budget) :
    spanBasic seen budget (escapeLine s ++ '"' :: rest) =
      some (String.ofList (seen.reverse ++ s), rest) := by
  induction s generalizing seen budget with
  | nil =>
    obtain ⟨budget, rfl⟩ := Nat.exists_eq_add_one_of_ne_zero (Nat.ne_of_gt h)
    rw [List.append_nil]
    rfl
  | cons c s ih =>
    obtain ⟨budget, rfl⟩ := Nat.exists_eq_add_one_of_ne_zero (Nat.ne_of_gt (Nat.zero_lt_of_lt h))
    rw [escapeLine, List.flatMap_cons, List.append_assoc, spanBasic_stands (stands_line c)]
    rw [← escapeLine, ih _ _ (Nat.lt_of_succ_lt_succ h), List.reverse_cons, List.append_assoc,
      List.singleton_append]

theorem length_le_escapeLine (s : List Char) : s.length ≤ (escapeLine s).length := by
  induction s with
  | nil => exact Nat.le_refl _
  | cons c s ih =>
    have hpos := (stands_line c).length_pos
    rw [escapeLine, List.flatMap_cons, List.length_append, ← escapeLine, List.length_cons]
    omega

/-- Characters in double quotes on one line are read back. -/
theorem spanBasic_line (s : List Char) :
    spanBasic [] ((escapeLine s ++ '"' :: rest).length + 1) (escapeLine s ++ '"' :: rest) =
      some (String.ofList s, rest) := by
  have hlength := length_le_escapeLine s
  refine spanBasic_escapeLine s [] _ ?_
  rw [List.length_append]
  omega

theorem head_escapeLine (s : List Char) : (escapeLine s).head? ≠ some '"' := by
  cases s with
  | nil => exact nofun
  | cons c s =>
    rw [escapeLine, List.flatMap_cons]
    exact (stands_line c).head_append _

/-- Characters in single quotes on one line are read back. -/
theorem spanLiteral_line {s : List Char} (h : ∀ c ∈ s, isPlain c = true ∧ c ≠ '\'') :
    spanLiteral (s ++ '\'' :: rest) = some (String.ofList s, rest) := by
  have hinside : (s ++ '\'' :: rest).takeWhile (fun c => isPlain c && c != '\'') = s := by
    rw [List.takeWhile_append_of_pos (by simpa using h), List.takeWhile_cons_of_neg (by simp),
      List.append_nil]
  rw [spanLiteral, hinside, List.drop_left]
  rfl

/-! ### Several lines -/

/-- Up to two quotes at the end of a string stand right before the three that close it. -/
theorem closeLines_replicate {quote : Char} (hquote : quote ≠ '\n') {k : Nat} (hk : k ≤ 2)
    (seen : List Char) :
    closeLines quote seen (List.replicate k quote ++ '\n' :: rest) =
      (String.ofList (seen.reverse ++ List.replicate k quote), '\n' :: rest) := by
  have hextra : (((List.replicate k quote ++ '\n' :: rest).take 2).takeWhile (· == quote)).length =
      k := by
    have hend : ('\n' == quote) = false := beq_eq_false_iff_ne.mpr hquote.symm
    match k, hk with
    | 0, _ => simp [hend]
    | 1, _ => simp [hend]
    | 2, _ => simp
  have hdrop : (List.replicate k quote ++ '\n' :: rest).drop k = '\n' :: rest :=
    List.drop_left' List.length_replicate
  rw [closeLines, hextra, hdrop, List.reverse_append, List.reverse_replicate]

/-- Of the quotes at the start of what is written, at most two stand in a row with those before. -/
theorem escapeLines_run (s : List Char) {quotes : Nat} (h : quotes ≤ 2) :
    ∃ k, quotes + k ≤ 2 ∧
      ((s = List.replicate k '"' ∧ escapeLines quotes s = s) ∨
        ∃ c t, escapeLines quotes s = List.replicate k '"' ++ c :: t ∧ c ≠ '"') := by
  induction s generalizing quotes with
  | nil => exact ⟨0, h, Or.inl ⟨rfl, rfl⟩⟩
  | cons c s ih =>
    by_cases hc : c = '"'
    · subst hc
      by_cases htwo : quotes = 2
      · refine ⟨0, h, Or.inr ⟨'\\', '"' :: escapeLines 0 s, ?_, by decide⟩⟩
        rw [escapeLines, if_pos (by rfl), if_pos htwo]
        rfl
      · have hwritten : escapeLines quotes ('"' :: s) = '"' :: escapeLines (quotes + 1) s := by
          rw [escapeLines, if_pos (by rfl), if_neg htwo]
        have hmore : quotes + 1 ≤ 2 := by omega
        obtain ⟨k, hk, hrun⟩ := ih hmore
        refine ⟨k + 1, by omega, ?_⟩
        rw [hwritten, List.replicate_succ]
        rcases hrun with ⟨hs, hsame⟩ | ⟨c, t, ht, hne⟩
        · exact Or.inl ⟨by rw [← hs], by rw [hsame]⟩
        · exact Or.inr ⟨c, t, by rw [ht, List.cons_append], hne⟩
    · refine ⟨0, h, Or.inr ?_⟩
      have hstands : Stands true c (escape c) := stands_escape hc (Or.inl rfl)
      have hhead := hstands.head_append (escapeLines 0 s)
      rw [escapeLines, if_neg (by simpa using hc)]
      obtain ⟨d, t, ht⟩ := List.exists_cons_of_length_pos hstands.length_pos
      rw [ht] at hhead ⊢
      exact ⟨d, t ++ escapeLines 0 s, rfl, fun heq => hhead (congrArg some heq)⟩

/-- Of fewer than three quotes in a row the first belongs to the string. -/
theorem spanBasicLines_quote {t : List Char} (h : ∀ u, t ≠ '"' :: '"' :: u) (seen : List Char)
    (budget : Nat) : spanBasicLines seen (budget + 1) ('"' :: t) =
      spanBasicLines ('"' :: seen) budget t := by
  rw [spanBasicLines, if_pos (by decide)]
  · exact fun u _ hu => h u hu
  · exact nofun
  · exact nofun

theorem afterContinuation?_eq_none {e : Char} (he : e ∉ [' ', '\t', '\r', '\n']) (t : List Char) :
    afterContinuation? (e :: t) = none := by
  simp only [List.mem_cons, List.not_mem_nil, or_false, not_or] at he
  obtain ⟨hspace, htab, hreturn, hend⟩ := he
  rw [afterContinuation?, List.dropWhile_cons_of_neg (by simp [isBlank, hspace, htab]),
    afterLineEnd?, Option.map_none]
  · exact fun _ h => hend (List.cons_eq_cons.mp h).1
  · exact fun _ h => hreturn (List.cons_eq_cons.mp h).1

/-- What stands for a character on several lines is read as this character. -/
theorem spanBasicLines_stands {c : Char} {u : List Char} (h : Stands true c u)
    (seen : List Char) (budget : Nat) :
    spanBasicLines seen (budget + 1) (u ++ rest) = spanBasicLines (c :: seen) budget rest := by
  cases h with
  | plain hplain hquote hbackslash =>
    have hplain' : (isPlain c || c == '\n') = true := by simpa using hplain
    rw [List.singleton_append, spanBasicLines, if_pos hplain']
    · exact fun _ h => absurd h hquote
    · exact hbackslash
    · rintro _ rfl
      exact absurd hplain' (by decide)
  | escaped hblank hescape =>
    rw [List.cons_append, List.cons_append, spanBasicLines, afterContinuation?_eq_none hblank,
      ← List.cons_append, hescape]

theorem replicate_append_three {quote : Char} (k : Nat) (t : List Char) :
    List.replicate k quote ++ quote :: quote :: quote :: t =
      quote :: quote :: quote :: (List.replicate k quote ++ t) := by
  induction k with
  | zero => rfl
  | succ k ih => rw [List.replicate_succ, List.cons_append, ih, List.cons_append]

/-- After a first quote there are no two more where a run of at most two quotes ends. -/
theorem not_two_quotes {quote c : Char} {s t : List Char} {k : Nat} (hk : k ≤ 2) (hc : c ≠ quote)
    (h : List.replicate k quote ++ c :: t = quote :: s) (u v : List Char) :
    s ++ u ≠ quote :: quote :: v := by
  intro heq
  match k, hk with
  | 0, _ => exact hc (List.cons_eq_cons.mp h).1
  | 1, _ =>
    obtain ⟨-, rfl⟩ := List.cons_eq_cons.mp h
    exact hc (List.cons_eq_cons.mp heq).1
  | 2, _ =>
    obtain ⟨-, rfl⟩ := List.cons_eq_cons.mp h
    exact hc (List.cons_eq_cons.mp (List.cons_eq_cons.mp heq).2).1

/-- Characters in double quotes on several lines are read back, also if quotes stand before them. -/
theorem spanBasicLines_escapeLines (s seen : List Char) {quotes budget : Nat} (hquotes : quotes ≤ 2)
    (h : s.length < budget) :
    spanBasicLines seen budget (escapeLines quotes s ++ '"' :: '"' :: '"' :: '\n' :: rest) =
      some (String.ofList (seen.reverse ++ s), '\n' :: rest) := by
  induction s generalizing seen quotes budget with
  | nil =>
    obtain ⟨budget, rfl⟩ := Nat.exists_eq_add_one_of_ne_zero (Nat.ne_of_gt h)
    exact congrArg some (closeLines_replicate (by decide) (Nat.zero_le 2) seen)
  | cons c s ih =>
    obtain ⟨budget, rfl⟩ := Nat.exists_eq_add_one_of_ne_zero (Nat.ne_of_gt (Nat.zero_lt_of_lt h))
    have hnext : seen.reverse ++ c :: s = (c :: seen).reverse ++ s := by simp
    have hbudget := Nat.lt_of_succ_lt_succ h
    by_cases hc : c = '"'
    · subst hc
      by_cases htwo : quotes = 2
      · have hstands : Stands true '"' ['\\', '"'] := .escaped (by decide) fun _ => rfl
        rw [escapeLines, if_pos (by rfl), if_pos htwo]
        refine (spanBasicLines_stands hstands seen budget).trans ?_
        rw [hnext]
        exact ih _ (Nat.zero_le 2) hbudget
      · have hwritten : escapeLines quotes ('"' :: s) = '"' :: escapeLines (quotes + 1) s := by
          rw [escapeLines, if_pos (by rfl), if_neg htwo]
        obtain ⟨k, hk, ⟨hs, hsame⟩ | ⟨c, t, ht, hne⟩⟩ := escapeLines_run ('"' :: s) hquotes
        · -- Nothing but quotes is left, so the string is closed here.
          rw [hsame, hs, replicate_append_three]
          exact congrArg some (closeLines_replicate (by decide) (by omega) seen)
        · rw [hwritten] at ht ⊢
          rw [List.cons_append, spanBasicLines_quote (not_two_quotes (by omega) hne ht.symm _),
            ih _ (by omega) hbudget, hnext]
    · rw [escapeLines, if_neg (by simpa using hc), List.append_assoc,
        spanBasicLines_stands (stands_escape hc (Or.inl rfl)), ih _ (Nat.zero_le 2) hbudget, hnext]

theorem length_le_escapeLines (s : List Char) (quotes : Nat) :
    s.length ≤ (escapeLines quotes s).length := by
  induction s generalizing quotes with
  | nil => exact Nat.zero_le _
  | cons c s ih =>
    rw [escapeLines]
    split
    · split
      · exact Nat.le_succ_of_le (Nat.succ_le_succ (ih 0))
      · exact Nat.succ_le_succ (ih (quotes + 1))
    · rename_i hc
      have hstands : Stands true c (escape c) := stands_escape (by simpa using hc) (Or.inl rfl)
      have hpos := hstands.length_pos
      have hrest := ih 0
      rw [List.length_append, List.length_cons]
      omega

/-! ### Single quotes on several lines -/

/-- A text without three quotes in a row starts with two at most. -/
theorem hasRun_run {quote : Char} {s : List Char} (h : hasRun quote s = false) :
    ∃ k ≤ 2, s = List.replicate k quote ∨
      ∃ c t, s = List.replicate k quote ++ c :: t ∧ c ≠ quote := by
  rcases s with _ | ⟨a, s⟩
  · exact ⟨0, Nat.zero_le 2, Or.inl rfl⟩
  by_cases ha : a = quote
  swap
  · exact ⟨0, Nat.zero_le 2, Or.inr ⟨a, s, rfl, ha⟩⟩
  subst ha
  rcases s with _ | ⟨b, s⟩
  · exact ⟨1, by decide, Or.inl rfl⟩
  by_cases hb : b = a
  swap
  · exact ⟨1, by decide, Or.inr ⟨b, s, rfl, hb⟩⟩
  subst hb
  rcases s with _ | ⟨c, s⟩
  · exact ⟨2, Nat.le_refl 2, Or.inl rfl⟩
  refine ⟨2, Nat.le_refl 2, Or.inr ⟨c, s, rfl, ?_⟩⟩
  rintro rfl
  simp [hasRun] at h

theorem spanLiteralLines_quote {t : List Char} (h : ∀ u, t ≠ '\'' :: '\'' :: u) (seen : List Char) :
    spanLiteralLines seen ('\'' :: t) = spanLiteralLines ('\'' :: seen) t := by
  rw [spanLiteralLines, if_pos (by decide)]
  · exact fun u _ hu => h u hu
  · exact nofun

theorem hasRun_tail {quote c : Char} {s : List Char} (h : hasRun quote (c :: s) = false) :
    hasRun quote s = false := by
  match s with
  | [] => rfl
  | [_] => rfl
  | a :: b :: s =>
    rw [hasRun, Bool.or_eq_false_iff] at h
    exact h.2

/-- Characters in single quotes on several lines are read back. -/
theorem spanLiteralLines_append {s : List Char} (hs : ∀ c ∈ s, isPlain c = true ∨ c = '\n')
    (hrun : hasRun '\'' s = false) (seen : List Char) :
    spanLiteralLines seen (s ++ '\'' :: '\'' :: '\'' :: '\n' :: rest) =
      some (String.ofList (seen.reverse ++ s), '\n' :: rest) := by
  induction s generalizing seen with
  | nil => exact congrArg some (closeLines_replicate (by decide) (Nat.zero_le 2) seen)
  | cons c s ih =>
    have hnext : seen.reverse ++ c :: s = (c :: seen).reverse ++ s := by simp
    have hlater := ih (fun d hd => hs d (List.mem_cons_of_mem c hd)) (hasRun_tail hrun)
    by_cases hc : c = '\''
    · subst hc
      obtain ⟨k, hk, hquotes | ⟨c, t, ht, hne⟩⟩ := hasRun_run hrun
      · rw [hquotes, replicate_append_three]
        exact congrArg some (closeLines_replicate (by decide) hk seen)
      · rw [List.cons_append, spanLiteralLines_quote (not_two_quotes hk hne ht.symm _), hlater,
          hnext]
    · have hplain : (isPlain c || c == '\n') = true := by simpa using hs c List.mem_cons_self
      rw [List.cons_append, spanLiteralLines, if_pos hplain, hlater, hnext]
      · exact fun _ h => absurd h hc
      · rintro _ rfl
        exact absurd hplain (by decide)

/-! ### The four forms -/

section Forms

variable (rest : List Char)

/-- A string with escapes on one line is read back. -/
theorem spanString_line (s : List Char) :
    spanString (between "\"" (escapeLine s) ++ '\n' :: rest) =
      some (String.ofList s, '\n' :: rest) := by
  have hform : between "\"" (escapeLine s) ++ '\n' :: rest =
      '"' :: (escapeLine s ++ '"' :: '\n' :: rest) := by
    simp [between]
  rw [hform, spanString, spanBasic_line]
  intro u hu
  cases hs : escapeLine s with
  | nil =>
    rw [hs] at hu
    cases hu
  | cons c t =>
    rw [hs] at hu
    have hhead := head_escapeLine s
    rw [hs] at hhead
    exact hhead (congrArg some (List.cons_eq_cons.mp hu).1)

/-- A string in single quotes on one line is read back. -/
theorem spanString_literal {s : List Char} (h : ∀ c ∈ s, isPlain c = true ∧ c ≠ '\'') :
    spanString (between "'" s ++ '\n' :: rest) = some (String.ofList s, '\n' :: rest) := by
  have hform : between "'" s ++ '\n' :: rest = '\'' :: (s ++ '\'' :: '\n' :: rest) := by
    simp [between]
  rw [hform, spanString, spanLiteral_line h]
  intro u hu
  cases s with
  | nil => cases hu
  | cons c s => exact (h c List.mem_cons_self).2 (List.cons_eq_cons.mp hu).1

/-- A line end at the start of a string of several lines is the one that does not count. -/
theorem trimLineEnd_start {s t : List Char}
    (h : '\n' ∉ s → ∀ c ∈ t.head?, c ≠ '\n' ∧ c ≠ '\r') :
    trimLineEnd ((if s.contains '\n' then ['\n'] else []) ++ t) = t := by
  split
  · rfl
  · rename_i hnone
    have hhead := h (by simpa using hnone)
    cases t with
    | nil => rfl
    | cons c t =>
      obtain ⟨hend, hreturn⟩ := hhead c rfl
      rw [List.nil_append, trimLineEnd, afterLineEnd?, Option.getD_none]
      · exact fun _ h => hend (List.cons_eq_cons.mp h).1
      · exact fun _ h => hreturn (List.cons_eq_cons.mp h).1

/-- A string with escapes on several lines is read back. -/
theorem spanString_lines (s : List Char) :
    spanString (between "\"\"\"" ((if s.contains '\n' then ['\n'] else []) ++ escapeLines 0 s) ++
      '\n' :: rest) = some (String.ofList s, '\n' :: rest) := by
  have hform : between "\"\"\"" ((if s.contains '\n' then ['\n'] else []) ++ escapeLines 0 s) ++
      '\n' :: rest = '"' :: '"' :: '"' :: ((if s.contains '\n' then ['\n'] else []) ++
        (escapeLines 0 s ++ '"' :: '"' :: '"' :: '\n' :: rest)) := by
    simp [between]
  have hhead : '\n' ∉ s → ∀ c ∈ (escapeLines 0 s ++ '"' :: '"' :: '"' :: '\n' :: rest).head?,
      c ≠ '\n' ∧ c ≠ '\r' := by
    intro hnone d hd
    cases s with
    | nil =>
      cases hd
      decide
    | cons c s =>
      rw [escapeLines] at hd
      split at hd
      · cases hd
        decide
      · rename_i hquote
        rw [List.append_assoc] at hd
        have hend : c ≠ '\n' := by
          rintro rfl
          exact hnone List.mem_cons_self
        have hstands : Stands false c (escape c) :=
          stands_escape (by simpa using hquote) (Or.inr hend)
        exact hstands.ne_lineEnd hd
  have hlength := length_le_escapeLines s 0
  rw [hform, spanString, trimLineEnd_start hhead]
  refine spanBasicLines_escapeLines s [] (Nat.zero_le 2) ?_
  simp only [List.length_append]
  omega

/-- A string in single quotes on several lines is read back. -/
theorem spanString_literalLines {s : List Char} (hs : ∀ c ∈ s, isPlain c = true ∨ c = '\n')
    (hrun : hasRun '\'' s = false) :
    spanString (between "'''" ((if s.contains '\n' then ['\n'] else []) ++ s) ++ '\n' :: rest) =
      some (String.ofList s, '\n' :: rest) := by
  have hform : between "'''" ((if s.contains '\n' then ['\n'] else []) ++ s) ++ '\n' :: rest =
      '\'' :: '\'' :: '\'' :: ((if s.contains '\n' then ['\n'] else []) ++
        (s ++ '\'' :: '\'' :: '\'' :: '\n' :: rest)) := by
    simp [between]
  have hhead : '\n' ∉ s → ∀ c ∈ (s ++ '\'' :: '\'' :: '\'' :: '\n' :: rest).head?,
      c ≠ '\n' ∧ c ≠ '\r' := by
    intro hnone d hd
    cases s with
    | nil =>
      cases hd
      decide
    | cons c s =>
      cases hd
      have hplain : isPlain d = true := (hs d List.mem_cons_self).resolve_right fun h =>
        hnone (h ▸ List.mem_cons_self)
      exact ne_lineEnd_of_isPlain hplain
  rw [hform, spanString, trimLineEnd_start hhead, spanLiteralLines_append hs hrun]
  rfl

theorem isPlain_or_of_any_isControl {s : List Char} (h : s.any isControl = false) :
    ∀ c ∈ s, isPlain c = true ∨ c = '\n' := by
  intro c hc
  have hcontrol := List.any_eq_false.mp h c hc
  by_cases hend : c = '\n'
  · exact Or.inr hend
  · exact Or.inl (by simpa [isControl, hend] using hcontrol)

/-- A string is read back as it was written, up to the end of its line. -/
theorem spanString_quoted (text : String) :
    spanString (quoted text ++ '\n' :: rest) = some (text, '\n' :: rest) := by
  rw [← String.ofList_toList (s := text)]
  generalize text.toList = s
  unfold quoted
  rw [String.toList_ofList]
  dsimp only
  split
  · exact spanString_line rest s
  split
  · rename_i h
    simp only [Bool.and_eq_true, Bool.not_eq_true'] at h
    obtain ⟨⟨hcontrol, hquote⟩, hend⟩ := h
    refine spanString_literal rest fun c hc => ⟨?_, ?_⟩
    · refine (isPlain_or_of_any_isControl hcontrol c hc).resolve_right ?_
      rintro rfl
      simp [hc] at hend
    · rintro rfl
      simp [hc] at hquote
  split
  · exact spanString_lines rest s
  split
  · rename_i h
    simp only [Bool.and_eq_true, Bool.not_eq_true'] at h
    exact spanString_literalLines rest (isPlain_or_of_any_isControl h.1) h.2
  split
  · rename_i hend
    have hlines := spanString_lines rest s
    rwa [if_pos hend] at hlines
  · exact spanString_line rest s

end Forms

/-- A string starts with a quote. -/
theorem head_quoted (text : String) :
    ∃ c s, quoted text = c :: s ∧ (c = '"' ∨ c = '\'') := by
  unfold quoted
  dsimp only
  split
  · exact ⟨_, _, rfl, Or.inl rfl⟩
  split
  · exact ⟨_, _, rfl, Or.inr rfl⟩
  split
  · exact ⟨_, _, rfl, Or.inl rfl⟩
  split
  · exact ⟨_, _, rfl, Or.inr rfl⟩
  split
  · exact ⟨_, _, rfl, Or.inl rfl⟩
  · exact ⟨_, _, rfl, Or.inl rfl⟩

end Milling.Toml
