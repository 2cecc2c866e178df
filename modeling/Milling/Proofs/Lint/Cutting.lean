import Milling.Proofs.Block.Word
import Milling.Proofs.Decimal.Digits
import Milling.Proofs.Lint.Layout
import Milling.Proofs.Program.Remark
/-!
Cutting, as the checker and the compiler see it.

Both follow the mode of a program line by line, each in its own way: the compiler by the number of
the first G word, the checker by the spelling of all G words. Over lines that leave no room for a
difference (`IsPlain`) the two stay together (`sameMode_after`), so a missing feed rate is reported
exactly on the lines whose commands cut before any feed rate is given
(`flags_missingFeed_of_isPlain`).
-/

namespace Milling

def Motion.IsCutting (m : Motion) : Prop :=
  m ∈ [linear, arcClockwise, arcCounterclockwise]

instance (m : Motion) : Decidable m.IsCutting := by
  unfold Motion.IsCutting; infer_instance

namespace Lint

/-! ### Plain lines -/

/-- The number of a word, as the compiler reads it. -/
def numberOf? (word : String) : Option Nat :=
  Block.codeValue word.toList.tail

/-- A line that neither starts with a parenthesis nor with a percent sign, with at most one G word;
a word for motion is written with one or two digits. -/
structure IsPlain (line : List Char) : Prop where
  start : (Text.trim line).head? ∉ [some '(', some '%']
  single : (wordsOf 'G' (Block.code line)).length ≤ 1
  short : ∀ word ∈ wordsOf 'G' (Block.code line), ∀ n ∈ numberOf? word, n ≤ 3 →
    word.toList.tail.length ≤ 2

theorem isPlain_iff (line : List Char) : IsPlain line ↔
    (Text.trim line).head? ∉ [some '(', some '%'] ∧
      (wordsOf 'G' (Block.code line)).length ≤ 1 ∧
      ∀ word ∈ wordsOf 'G' (Block.code line), ∀ n ∈ numberOf? word, n ≤ 3 →
        word.toList.tail.length ≤ 2 :=
  ⟨fun h => ⟨h.start, h.single, h.short⟩, fun ⟨start, single, short⟩ => ⟨start, single, short⟩⟩

/-! ### One word -/

/-- The compiler takes the digits of the first G word. -/
theorem codeDigits?_eq (code : List Char) :
    Block.codeDigits? code = (wordsOf 'G' code).head?.map (·.toList.tail) := by
  induction code with
  | nil => rfl
  | cons c rest ih =>
    rw [wordsOf_cons, Block.codeDigits?, wordAt?]
    have hletter : isLetter 'G' c = (c == 'G' || c == 'g') := rfl
    rw [hletter]
    by_cases hc : (c == 'G' || c == 'g') = true
    · by_cases hdigits : rest.takeWhile Text.isDecimalDigit = []
      · simpa [hc, hdigits] using ih
      · simp [hc, hdigits]
    · simpa [hc] using ih

theorem digitChar_of_isDigit {c : Char} (h : c.isDigit = true) :
    Nat.digitChar (c.toNat - '0'.toNat) = c := by
  have hc := Decimal.toNat_of_isDigit h
  have hzero : '0'.toNat = 48 := rfl
  apply Char.toNat_inj.mp
  rw [Nat.toNat_digitChar_of_lt_ten hc.2]
  omega

/-- One or two digits for a number of the motions G0 to G3 are a digit, or a zero and a digit. -/
theorem eq_of_codeValue {digits : List Char} {n : Nat} (hne : digits ≠ [])
    (hvalue : Block.codeValue digits = some n) (hn : n ≤ 3) (hshort : digits.length ≤ 2) :
    digits = [Nat.digitChar n] ∨ digits = ['0', Nat.digitChar n] := by
  rw [Block.codeValue] at hvalue
  split at hvalue
  · rename_i hread
    have hdigits : ∀ c ∈ digits, c.isDigit = true :=
      List.all_eq_true.mp (Bool.and_eq_true_iff.mp hread).1
    obtain rfl := Option.some.inj hvalue
    match digits, hne with
    | [a], _ =>
      left
      have hvalue : Decimal.value [a] = a.toNat - '0'.toNat := by
        simp [Decimal.value, Nat.ofDigitChars_cons]
      rw [hvalue, digitChar_of_isDigit (hdigits a (by simp))]
    | [a, b], _ =>
      right
      have hvalue : Decimal.value [a, b] = 10 * (a.toNat - '0'.toNat) + (b.toNat - '0'.toNat) := by
        simp [Decimal.value, Nat.ofDigitChars_cons]
      -- A first digit other than zero would make the number ten or more.
      have hzero : a.toNat - '0'.toNat = 0 := by omega
      have ha := digitChar_of_isDigit (hdigits a (by simp))
      rw [hzero] at ha
      rw [hvalue, hzero, Nat.mul_zero, Nat.zero_add, digitChar_of_isDigit (hdigits b (by simp)), ← ha]
      rfl
    | _ :: _ :: _ :: _, _ =>
      simp only [List.length_cons] at hshort
      omega
  · cases hvalue

/-- What the checker and the compiler take from a line: nothing, or a word and its motion that both
cut or are both rapid. -/
inductive SameMode : Option String → Option Motion → Prop
  | cutting {word : String} {motion : Motion} : word ∈ cuttingG → motion.IsCutting →
      SameMode (some word) (some motion)
  | rapid {word : String} : word ∈ rapidG → SameMode (some word) (some .rapid)
  | none : SameMode none none

/-- If two pairs fit together, so do the first of either that are there. -/
theorem SameMode.or {word word' : Option String} {motion motion' : Option Motion}
    (h : SameMode word motion) (h' : SameMode word' motion') :
    SameMode (word.or word') (motion.or motion') := by
  cases h with
  | cutting hword hmotion => exact .cutting hword hmotion
  | rapid hword => exact .rapid hword
  | none => exact h'

/-- Without a word both are in rapid mode. -/
theorem SameMode.cutting_iff {word : Option String} {motion : Option Motion}
    (h : SameMode word motion) :
    (∃ w ∈ cuttingG, word = some w) ↔ (motion.getD .rapid).IsCutting := by
  have hdisjoint : ∀ w ∈ rapidG, w ∉ cuttingG := by decide
  cases h with
  | @cutting w m hword hmotion => exact iff_of_true ⟨w, hword, rfl⟩ hmotion
  | @rapid w hword =>
    refine iff_of_false ?_ (by decide)
    rintro ⟨w', hcutting, hw⟩
    obtain rfl := Option.some.inj hw
    exact hdisjoint w hword hcutting
  | none => exact iff_of_false (by simp) (by decide)

/-- A G word with its leading zeros is for the checker what its number is for the compiler, if only
words for motion are short. -/
theorem sameMode_word {digits : List Char} (hne : digits ≠ [])
    (hshort : ∀ n ∈ Block.codeValue digits, n ≤ 3 → digits.length ≤ 2) :
    SameMode ((some (String.ofList ('G' :: digits))).filter IsModeWord)
      ((Block.codeValue digits).bind Motion.ofCode?) := by
  have hcutting : ∀ word ∈ cuttingG, ∃ motion : Motion,
      (numberOf? word).bind Motion.ofCode? = some motion ∧ motion.IsCutting := by
    simp only [cuttingG, List.forall_mem_cons]
    exact ⟨⟨.linear, by decide⟩, ⟨.linear, by decide⟩, ⟨.arcClockwise, by decide⟩,
      ⟨.arcClockwise, by decide⟩, ⟨.arcCounterclockwise, by decide⟩,
      ⟨.arcCounterclockwise, by decide⟩, by simp⟩
  have hrapid : ∀ word ∈ rapidG, (numberOf? word).bind Motion.ofCode? = some .rapid := by decide
  have hnumber : numberOf? (String.ofList ('G' :: digits)) = Block.codeValue digits := by
    rw [numberOf?, String.toList_ofList, List.tail_cons]
  by_cases hmode : IsModeWord (String.ofList ('G' :: digits))
  · rw [Option.filter_some_pos (by simpa using hmode), ← hnumber]
    rcases hmode with hmode | hmode
    · obtain ⟨motion, hmotion, hcuts⟩ := hcutting _ hmode
      rw [hmotion]
      exact .cutting hmode hcuts
    · rw [hrapid _ hmode]
      exact .rapid hmode
  · have hnone : (Block.codeValue digits).bind Motion.ofCode? = none := by
      cases hvalue : Block.codeValue digits with
      | none => rfl
      | some n =>
        by_cases hn : n ≤ 3
        · exfalso
          refine hmode ?_
          rcases eq_of_codeValue hne hvalue hn (hshort n hvalue hn) with rfl | rfl
          · interval_cases n <;> decide
          · interval_cases n <;> decide
        · exact Motion.ofCode?_of_lt (Nat.lt_of_not_le hn)
    rw [Option.filter_some_neg (by simpa using hmode), hnone]
    exact .none

/-- The motion that the number of the first G word of a code selects. -/
def motionOf? (code : List Char) : Option Motion :=
  (Block.codeNumber? code).bind Motion.ofCode?

/-- The checker and the compiler take the same from a plain line. -/
theorem sameMode_line {line : List Char} (h : IsPlain line) :
    SameMode (((wordsOf 'G' (Block.code line)).filter IsModeWord).getLast?)
      (motionOf? (Block.code line)) := by
  have hdigits := codeDigits?_eq (Block.code line)
  obtain ⟨-, hsingle, hshort⟩ := h
  cases hwords : wordsOf 'G' (Block.code line) with
  | nil =>
    rw [hwords] at hdigits
    rw [motionOf?, Block.codeNumber?, hdigits]
    exact .none
  | cons word others =>
    rw [hwords] at hdigits hsingle hshort
    obtain rfl : others = [] := by
      rw [List.length_cons] at hsingle
      exact List.eq_nil_of_length_eq_zero (by omega)
    obtain ⟨d, ds, rfl, -⟩ := isCodeWord_of_mem_wordsOf
      (hwords ▸ List.mem_cons_self : word ∈ wordsOf 'G' (Block.code line))
    have hshort := hshort _ List.mem_cons_self
    rw [numberOf?, String.toList_ofList, List.tail_cons] at hshort
    have hword := sameMode_word (List.cons_ne_nil d ds) hshort
    have hmotion : motionOf? (Block.code line) = (Block.codeValue (d :: ds)).bind Motion.ofCode? := by
      rw [motionOf?, Block.codeNumber?, hdigits, List.head?_cons, Option.map_some,
        String.toList_ofList, List.tail_cons, Option.bind_some]
    have hlast : ∀ w : String, ([w].filter IsModeWord).getLast? = (some w).filter IsModeWord := by
      intro w
      by_cases hw : IsModeWord w <;> simp [hw, Option.filter]
    rwa [hmotion, hlast]

/-! ### The lines before -/

def codes (numbered : List (List Char × Nat)) : List (List Char) :=
  numbered.map fun l => Block.code l.1

end Lint

namespace Machine

theorem after_concat_blank {m : Machine} {pre : List (List Char × Nat)} {l : List Char × Nat}
    (h : Block.read l.1 = none) : m.after (pre ++ [l]) = m.after pre := by
  simp [after, Run.lines, Run.line, h]

theorem after_concat_block {m : Machine} {pre : List (List Char × Nat)} {l : List Char × Nat}
    {b : Block} (h : Block.read l.1 = some b) :
    m.after (pre ++ [l]) = ((m.after pre).step l.2 b).2 := by
  simp [after, Run.lines, Run.line, h]

/-- The mode after a line is the motion of its own code, or stays. -/
theorem mode_after_concat (m : Machine) (pre : List (List Char × Nat)) {l : List Char × Nat}
    (hline : '\n' ∉ l.1) :
    (m.after (pre ++ [l])).mode = (Lint.motionOf? (Block.code l.1)).getD (m.after pre).mode := by
  cases hread : Block.read l.1 with
  | none =>
    have hcode := Block.code_of_trim_eq_nil hline (Block.read_eq_none_iff.mp hread)
    rw [after_concat_blank hread, hcode]
    rfl
  | some b =>
    have hfields := Block.fields_of_read hline hread
    rw [after_concat_block hread]
    unfold step nextMode Lint.motionOf?
    rw [hfields]
    split
    · rename_i hempty
      split at hempty
      · rename_i hnil
        rw [List.isEmpty_iff.mp hnil]
        rfl
      · cases hempty
    · rename_i w hw
      split at hw
      · cases hw
      · obtain rfl := Option.some.inj hw
        split <;> rfl

/-- Each step of a run is that of a line, taken by the machine that the lines before leave. -/
theorem exists_line_of_mem_steps {m : Machine} {numbered : List (List Char × Nat)} {s : Step}
    (h : s ∈ m.steps numbered) :
    ∃ pre l post b, numbered = pre ++ l :: post ∧ Block.read l.1 = some b ∧
      s = ((m.after pre).step l.2 b).1 := by
  induction numbered using List.reverseRecOn with
  | nil => simp [steps] at h
  | append_singleton pre l ih =>
    rw [steps_append] at h
    rcases List.mem_append.mp h with h | h
    · obtain ⟨pre', l', post, b, rfl, hread, hs⟩ := ih h
      exact ⟨pre', l', post ++ [l], b, by simp, hread, hs⟩
    · cases hread : Block.read l.1 with
      | none => simp [steps, hread] at h
      | some b =>
        rw [steps_cons_block hread] at h
        exact ⟨pre, l, [], b, rfl, hread, by simpa [steps] using h⟩

/-- A command with a coordinate moves in the mode that it leaves behind. -/
theorem motion_eq_mode (m : Machine) (line : Nat) (b : Block)
    (haxis : (m.step line b).1.command.hasAxis = true) :
    (m.step line b).1.command.motion = (m.step line b).2.mode := by
  rw [step_motion, step_mode, motionOf]
  cases (m.step line b).1.command.code? with
  | none => simp [haxis]
  | some motion => rfl

end Machine

namespace Lint

/-- Checker and compiler hold the same mode after the same plain lines. -/
theorem sameMode_after {pre : List (List Char × Nat)} (hline : ∀ l ∈ pre, '\n' ∉ l.1)
    (hplain : ∀ l ∈ pre, IsPlain l.1) :
    ∃ latest, SameMode (lastModeWord? (codes pre)) latest ∧
      (Machine.initial.after pre).mode = latest.getD .rapid := by
  induction pre using List.reverseRecOn with
  | nil => exact ⟨none, .none, rfl⟩
  | append_singleton pre l ih =>
    obtain ⟨latest, hsame, hmode⟩ := ih (fun l hl => hline l (by simp [hl]))
      (fun l hl => hplain l (by simp [hl]))
    refine ⟨(motionOf? (Block.code l.1)).or latest, ?_, ?_⟩
    · rw [codes, List.map_append, List.map_singleton, lastModeWord?_concat]
      exact (sameMode_line (hplain l (by simp))).or hsame
    · rw [Machine.mode_after_concat _ _ (hline l (by simp)), hmode]
      cases motionOf? (Block.code l.1) <;> rfl

/-! ### Lines that the checker passes over -/

theorem code_of_semicolon {rest : List Char} (hline : '\n' ∉ rest) : Block.code (';' :: rest) = [] := by
  have hopens : ¬ Block.opensComment ';' rest = true := by simp [Block.opensComment_iff]
  rw [Block.code_eq (by simpa using hline), Block.withoutParens_cons hopens]
  simp [Text.trim, Text.trimLeft, Text.trimRight]

/-- Of the plain lines, those without code are passed over. -/
theorem isActive_iff {line : List Char} (hline : '\n' ∉ line) (h : IsPlain line) :
    IsActive line ↔ Block.code line ≠ [] := by
  rw [IsActive, Block.code_trim hline]
  constructor
  · exact fun hactive => hactive.2.2
  · intro hcode
    have hstart := h.start
    simp only [List.mem_cons, List.not_mem_nil, or_false, not_or] at hstart ⊢
    refine ⟨fun htrim => hcode (Block.code_of_trim_eq_nil hline htrim),
      ⟨hstart.1, fun hsemicolon => hcode ?_, hstart.2⟩, hcode⟩
    obtain ⟨rest, hrest⟩ := List.head?_eq_some_iff.mp hsemicolon
    rw [← Block.code_trim hline, hrest]
    refine code_of_semicolon fun hmem => hline ?_
    obtain ⟨left, right, hs, -, -⟩ := Text.exists_eq_trim line
    rw [hs, hrest]
    simp [hmem]

/-- Of plain lines those are checked on which there is some code. -/
theorem activeLine?_eq {l : List Char × Nat} (hline : '\n' ∉ l.1) (h : IsPlain l.1) :
    activeLine? l = if Block.code l.1 = [] then none else some (l.2 + 1, Block.code l.1) := by
  rw [activeLine?, Block.code_trim hline]
  by_cases hcode : Block.code l.1 = []
  · rw [if_neg fun hactive => (isActive_iff hline h).mp hactive hcode, if_pos hcode]
  · rw [if_pos ((isActive_iff hline h).mpr hcode), if_neg hcode]

theorem map_activeLine? {pre : List (List Char × Nat)} (hline : ∀ l ∈ pre, '\n' ∉ l.1)
    (hplain : ∀ l ∈ pre, IsPlain l.1) :
    (pre.filterMap activeLine?).map (·.2) = (codes pre).filter (· ≠ []) := by
  induction pre with
  | nil => rfl
  | cons l pre ih =>
    have hrest := ih (fun l hl => hline l (by simp [hl])) (fun l hl => hplain l (by simp [hl]))
    have hl := activeLine?_eq (hline l (by simp)) (hplain l (by simp))
    by_cases hcode : Block.code l.1 = []
    · rw [if_pos hcode] at hl
      simpa [codes, hl, hcode] using hrest
    · rw [if_neg hcode] at hl
      simpa [codes, hl, hcode] using hrest

/-- Lines without code have no part in what cuts. -/
theorem lastModeWord?_filter (past : List (List Char)) :
    lastModeWord? (past.filter (· ≠ [])) = lastModeWord? past := by
  have hwords : (past.filter (· ≠ [])).flatMap (wordsOf 'G') = past.flatMap (wordsOf 'G') := by
    induction past with
    | nil => rfl
    | cons code past ih =>
      by_cases hcode : code = []
      · have hnil : wordsOf 'G' [] = [] := rfl
        simpa [hcode, hnil] using ih
      · simpa [hcode] using ih
  rw [lastModeWord?, hwords, lastModeWord?]

theorem not_feedWord_nil (v : Float) : ¬ FeedWord [] v := by
  rw [← feed?_eq_some_iff]
  exact nofun

/-! ### What is reported on a line -/

/-- The report has an issue of a rule on a line. -/
def Report.Flags (r : Report) (rule : String) (n : Nat) : Prop :=
  ∃ i ∈ r.issues, i.code = rule ∧ i.line = n

section OneLine

variable {past : List (List Char)} {n : Nat} {code : List Char} {report : List Issue}

/-- A report tells of a missing feed rate exactly if it is missing. -/
theorem LineReport.missingFeed_iff (h : LineReport past n code report) :
    (∃ i ∈ report, i.code = "MISSING_FEED") ↔ MissingFeed past code := by
  have hrule : "MISSING_FEED".toList.tail.head?.any Text.isDecimalDigit = false := by decide
  constructor
  · rintro ⟨i, hi, hcode⟩
    rcases h.mem_iff.mp hi with hi | ⟨hmissing, -⟩ | ⟨z, -, rfl⟩ | ⟨-, rfl⟩
    · rcases eq_unsupported_of_mem hi with ⟨word, hword, rfl⟩ | ⟨word, hword, rfl⟩
      · exact absurd hcode ((isCodeWord_of_mem_wordsOf hword).ne hrule)
      · exact absurd hcode ((isCodeWord_of_mem_wordsOf hword).ne hrule)
    · exact hmissing
    · exact absurd hcode (by decide : "RAPID_PLUNGE" ≠ "MISSING_FEED")
    · exact absurd hcode (by decide : "SYNTAX_ERROR" ≠ "MISSING_FEED")
  · intro hmissing
    exact ⟨missingFeed n, h.mem_iff.mpr (.inr (.inl ⟨hmissing, rfl⟩)), rfl⟩

end OneLine

/-- Whether a rule is broken on a line depends on the issues of that line alone. -/
theorem flags_missingFeed_iff {source : String} {past later : List (Nat × List Char)} {n : Nat}
    {code : List Char} (hlines : activeLines source = past ++ (n, code) :: later)
    (hpast : n ∉ past.map (·.1)) (hlater : n ∉ later.map (·.1)) :
    (check source).Flags "MISSING_FEED" n ↔ MissingFeed (past.map (·.2)) code := by
  obtain ⟨earlier, report, others, hissues, hearlier, hreport, hothers⟩ :=
    (check_judged source).split hlines
  rw [← hreport.missingFeed_iff, Report.Flags, hissues]
  constructor
  · rintro ⟨i, hi, hcode, hline⟩
    rcases List.mem_append.mp hi with hi | hi
    · rcases List.mem_append.mp hi with hi | hi
      · exact absurd (hline ▸ hearlier.line_mem hi) hpast
      · exact ⟨i, hi, hcode⟩
    · exact absurd (hline ▸ hothers i hi) hlater
  · rintro ⟨i, hi, hcode⟩
    exact ⟨i, by simp [hi], hcode, hreport.line_of_mem hi⟩

/-! ### A line that moves -/

theorem isAxis_of_letter {c : Char} {l : Block.Letter} (h : Block.Letter.ofChar? c = some l)
    (hl : l = .x ∨ l = .y ∨ l = .z) : IsAxis c := by
  unfold Block.Letter.ofChar? at h
  split at h
  · rename_i hc
    exact .inl hc
  split at h
  · rename_i hc
    exact .inr (.inl hc)
  split at h
  · rename_i hc
    exact .inr (.inr hc)
  -- The other letters are those of no axis.
  rcases hl with rfl | rfl | rfl <;> split_ifs at h <;> cases h

theorem startsNumber_append {w : List Char} (h : Block.IsNumber w) (s : List Char) :
    StartsNumber (w ++ s) := by
  cases h with
  | plain h =>
    obtain ⟨d, ds, rfl⟩ := List.exists_cons_of_ne_nil h.ne_nil
    exact ⟨d, ds ++ s, rfl, .inr h.head⟩
  | @minus w h => exact ⟨'-', w ++ s, rfl, .inl rfl⟩

/-- Where the compiler reads a coordinate, the checker sees a move. -/
theorem hasAxisWord_of_hasAxis {code : List Char} (h : (Block.readFields code).hasAxis = true) :
    HasAxisWord code := by
  have hletter : ∀ l : Block.Letter, l = .x ∨ l = .y ∨ l = .z →
      (Block.field (Block.words code) l).isSome = true → HasAxisWord code := by
    intro l hl hfield
    obtain ⟨before, c, number, after, hcode, hc, hnumber⟩ := Block.exists_eq_of_field hfield
    exact ⟨before, c, number ++ after, hcode, isAxis_of_letter hc hl, startsNumber_append hnumber after⟩
  rw [Block.Fields.hasAxis, Bool.or_eq_true, Bool.or_eq_true] at h
  rcases h with (h | h) | h
  · exact hletter .x (by simp) h
  · exact hletter .y (by simp) h
  · exact hletter .z (by simp) h

theorem HasAxisWord.ne_nil {code : List Char} (h : HasAxisWord code) : code ≠ [] := by
  obtain ⟨before, c, rest, rfl, -⟩ := h
  exact List.append_ne_nil_of_right_ne_nil before (List.cons_ne_nil c rest)

end Lint

/-- A line whose command has a coordinate is a move for the checker. -/
theorem Machine.hasAxisWord_of_step {m : Machine} {line : Nat} {s : List Char} {b : Block}
    (hs : '\n' ∉ s) (hread : Block.read s = some b)
    (haxis : (m.step line b).1.command.hasAxis = true) : Lint.HasAxisWord (Block.code s) := by
  have hfields : b.fieldsOrEmpty.hasAxis = true := by rwa [← m.step_fields line b]
  rw [Block.fieldsOrEmpty, Block.fields_of_read hs hread] at hfields
  split at hfields
  · cases hfields
  · exact Lint.hasAxisWord_of_hasAxis hfields

/-! ### The line of a command -/

namespace Program

section Split

variable {source : String} {pre post : List (List Char × Nat)} {l : List Char × Nat}

theorem take_lines_of_split (h : numberedLines source = pre ++ l :: post) :
    (Text.lines source).take (l.2 + 1) = (pre ++ [l]).map (·.1) := by
  have hlines : Text.lines source = (numberedLines source).map (·.1) :=
    (List.zipIdx_map_fst 0 _).symm
  have hnumber : l.2 = pre.length := by
    have hl : (numberedLines source)[pre.length]? = some l := by
      rw [h, List.getElem?_append_right (Nat.le_refl _), Nat.sub_self, List.getElem?_cons_zero]
    rw [numberedLines, List.getElem?_zipIdx] at hl
    obtain ⟨line, -, rfl⟩ := Option.map_eq_some_iff.mp hl
    exact Nat.zero_add _
  have hlength : ((pre ++ [l]).map (·.1)).length = l.2 + 1 := by
    rw [List.length_map, List.length_append, List.length_singleton, hnumber]
  rw [hlines, h, ← List.singleton_append, ← List.append_assoc, List.map_append, ← hlength,
    List.take_left]

theorem number_ne_of_split (h : numberedLines source = pre ++ l :: post) :
    (∀ r ∈ pre, r.2 ≠ l.2) ∧ ∀ r ∈ post, r.2 ≠ l.2 := by
  have hincreasing := numberedLines_increasing source
  rw [h, List.pairwise_map, List.pairwise_append, List.pairwise_cons] at hincreasing
  obtain ⟨-, ⟨hpost, -⟩, hpre⟩ := hincreasing
  exact ⟨fun r hr => (hpre r hr l List.mem_cons_self).ne, fun r hr => (hpost r hr).ne'⟩

end Split

end Program

namespace Lint

theorem number_mem_activeLines {numbered : List (List Char × Nat)} {n : Nat}
    (h : n + 1 ∈ (numbered.filterMap activeLine?).map (·.1)) : ∃ l ∈ numbered, l.2 = n := by
  obtain ⟨active, hactive, hn⟩ := List.mem_map.mp h
  obtain ⟨l, hl, hline⟩ := List.mem_filterMap.mp hactive
  refine ⟨l, hl, ?_⟩
  rw [activeLine?] at hline
  split at hline
  · obtain rfl := Option.some.inj hline
    exact Nat.succ.inj hn
  · cases hline

/-- No line of a list gives a feed rate if none of those with code does. -/
theorem forall_not_feedWord_filter {codes : List (List Char)} :
    (∀ code ∈ codes.filter (· ≠ []), ∀ v, ¬ FeedWord code v) ↔
      ∀ code ∈ codes, ∀ v, ¬ FeedWord code v := by
  constructor
  · intro h code hcode v
    by_cases hnil : code = []
    · rw [hnil]
      exact not_feedWord_nil v
    · exact h code (List.mem_filter.mpr ⟨hcode, by simpa using hnil⟩) v
  · exact fun h code hcode => h code (List.mem_filter.mp hcode).1

/-- The rule for a missing feed rate on a plain line that moves, told by the mode of the
compiler. -/
theorem missingFeed_iff_mode {pre : List (List Char × Nat)} {l : List Char × Nat}
    (hline : ∀ r ∈ pre ++ [l], '\n' ∉ r.1) (hplain : ∀ r ∈ pre ++ [l], IsPlain r.1)
    (hmoves : HasAxisWord (Block.code l.1)) :
    MissingFeed ((pre.filterMap activeLine?).map (·.2)) (Block.code l.1) ↔
      (Machine.initial.after (pre ++ [l])).mode.IsCutting ∧
        ∀ code ∈ codes (pre ++ [l]), ∀ v, ¬ FeedWord code v := by
  have hpast : (pre.filterMap activeLine?).map (·.2) ++ [Block.code l.1] =
      (codes (pre ++ [l])).filter (· ≠ []) := by
    rw [map_activeLine? (fun r hr => hline r (by simp [hr])) (fun r hr => hplain r (by simp [hr])),
      codes, codes, List.map_append, List.filter_append, List.map_singleton,
      List.filter_singleton]
    simp [hmoves.ne_nil]
  obtain ⟨latest, hsame, hmode⟩ := sameMode_after hline hplain
  rw [hmode, ← hsame.cutting_iff, ← forall_not_feedWord_filter, ← lastModeWord?_filter, ← hpast]
  exact ⟨fun h => ⟨h.cutting, h.unfed⟩, fun h => ⟨hmoves, h.1, h.2⟩⟩

/-- On plain lines a moving command is reported for a missing feed rate if and only if it goes
through the work and no line up to its own gives a feed rate. -/
theorem flags_missingFeed_of_isPlain {source : String}
    (hplain : ∀ line ∈ Text.lines source, IsPlain line) {c : Command}
    (hc : c ∈ (Program.compile source).commands) (haxis : c.hasAxis = true) :
    (check source).Flags "MISSING_FEED" (c.line + 1) ↔
      c.motion.IsCutting ∧
        ∀ line ∈ (Text.lines source).take (c.line + 1), ∀ v, ¬ FeedWord (Block.code line) v := by
  rw [← Array.mem_toList_iff, Program.toList_commands_compile] at hc
  obtain ⟨s, hs, rfl⟩ := List.mem_map.mp hc
  obtain ⟨pre, l, post, b, hsplit, hread, rfl⟩ := Machine.exists_line_of_mem_steps hs
  have hmem : ∀ r ∈ pre ++ [l], r.1 ∈ Text.lines source := by
    intro r hr
    have hr : r ∈ Program.numberedLines source := by
      rw [hsplit, ← List.singleton_append, ← List.append_assoc]
      exact List.mem_append_left _ hr
    exact List.fst_mem_of_mem_zipIdx hr
  have hline : ∀ r ∈ pre ++ [l], '\n' ∉ r.1 := fun r hr => Text.not_mem_of_mem_lines (hmem r hr)
  have hplain : ∀ r ∈ pre ++ [l], IsPlain r.1 := fun r hr => hplain _ (hmem r hr)
  have hmoves := Machine.hasAxisWord_of_step (hline l (by simp)) hread haxis
  have hlines : activeLines source = pre.filterMap activeLine? ++
      (l.2 + 1, Block.code l.1) :: post.filterMap activeLine? := by
    have hl := activeLine?_eq (hline l (by simp)) (hplain l (by simp))
    rw [if_neg hmoves.ne_nil] at hl
    rw [activeLines, ← Program.numberedLines, hsplit, List.filterMap_append,
      List.filterMap_cons_some hl]
  obtain ⟨hpre, hpost⟩ := Program.number_ne_of_split hsplit
  rw [Machine.motion_eq_mode _ _ _ haxis, Machine.step_line, ← Machine.after_concat_block hread,
    Program.take_lines_of_split hsplit, flags_missingFeed_iff hlines,
    missingFeed_iff_mode hline hplain hmoves, codes, List.forall_mem_map, List.forall_mem_map]
  · intro h
    obtain ⟨r, hr, hnumber⟩ := number_mem_activeLines h
    exact hpre r hr hnumber
  · intro h
    obtain ⟨r, hr, hnumber⟩ := number_mem_activeLines h
    exact hpost r hr hnumber

/-- The mode of the first line holds on the second, which is reported; the feed rate of the third
line comes too late for it. -/
theorem flags_missingFeed_of_isPlain_modal :
    (∀ line ∈ Text.lines "G1 (mode)\nX5\ng01 Y2 F300", IsPlain line) ∧
      (∃ c ∈ (Program.compile "G1 (mode)\nX5\ng01 Y2 F300").commands,
        c.line = 1 ∧ c.hasAxis = true ∧ c.motion = .linear) ∧
      (check "G1 (mode)\nX5\ng01 Y2 F300").Flags "MISSING_FEED" 2 := by
  have hplain : ∀ line ∈ Text.lines "G1 (mode)\nX5\ng01 Y2 F300", IsPlain line := by
    simp only [isPlain_iff]
    decide +kernel
  have hmoves : ∃ c ∈ (Program.compile "G1 (mode)\nX5\ng01 Y2 F300").commands,
      c.line = 1 ∧ c.hasAxis = true ∧ c.motion = .linear := by
    decide +kernel
  refine ⟨hplain, hmoves, ?_⟩
  obtain ⟨c, hc, hline, haxis, hmotion⟩ := hmoves
  have hfeed : ∀ line ∈ (Text.lines "G1 (mode)\nX5\ng01 Y2 F300").take 2,
      feed? (Block.code line) = none := by
    decide +kernel
  have hflags := flags_missingFeed_of_isPlain hplain hc haxis
  rw [hline, hmotion] at hflags
  refine hflags.mpr ⟨by decide, fun l hl v hv => ?_⟩
  rw [← feed?_eq_some_iff, hfeed l hl] at hv
  cases hv

end Lint

end Milling
