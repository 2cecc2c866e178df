import Milling.Proofs.Lint.Check
import Milling.Proofs.Program.Prefix
import Milling.Proofs.Text.Lines
/-!
How a report is laid out.

The issues of a line stand together, in the order of the rules (`LineReport.grouped`), and the lines
follow each other (`Judged.split`). So a report can be cut at any line: more lines at the end of a
text only add issues at the end (`check_extends`). Errors are the issues of a single rule, so a text
is valid exactly if no line that is checked breaks this rule (`isValid_check_iff`).
-/

namespace Milling.Lint

/-- The characters that the code of a line may consist of. -/
def Allowed (c : Char) : Prop :=
  c ∈ "GMXYZIJKFSPRT".toList ∨ c ∈ "gmxyzijkfsprt".toList ∨ c ∈ [Block.kelvin, Block.longS] ∨
    c ∈ ['%', '.', '-'] ∨ Text.isDecimalDigit c = true ∨ Text.isBlank c = true

def IsCodeWord (upper : Char) (word : String) : Prop :=
  ∃ d ds, word = String.ofList (upper :: d :: ds) ∧ Text.Digits (d :: ds)

/-- The issues of a line in their order: those of G words, those of M words, and then at most one
for each of the other rules. -/
inductive Grouped (n : Nat) : List Issue → Prop
  | groups {gs ms : List String} {feed plunge characters : List Issue} (z : Float) :
      (∀ word ∈ gs, IsCodeWord 'G' word ∧ word ∉ supportedG) →
      (∀ word ∈ ms, IsCodeWord 'M' word ∧ word ∉ supportedM) →
      feed.Sublist [missingFeed n] → plunge.Sublist [rapidPlunge n z] →
      characters.Sublist [malformed n] →
      Grouped n (gs.map (unsupported n "G") ++ ms.map (unsupported n "M") ++ feed ++ plunge ++
        characters)

/-- The issues of a report are in the order of their lines, and on each line in that of the rules.
The counts tell the errors apart, which are the issues of one rule, and a report without errors is
that of a text whose checked lines keep this rule. -/
structure LaidOut (source : String) (r : Report) : Prop where
  ascending : (r.issues.map (·.line)).Pairwise (· ≤ ·)
  inText : ∀ i ∈ r.issues, 1 ≤ i.line ∧ i.line ≤ (Text.lines source).length
  grouped : ∀ n, Grouped n (r.issues.filter (·.line = n))
  errors : r.errors = (r.issues.filter (·.code = "SYNTAX_ERROR")).length
  total : r.errors + r.warnings = r.issues.length
  valid : r.isValid = true ↔ ∀ line ∈ Text.lines source, IsActive line →
    ∀ c ∈ Block.code (Text.trim line), Allowed c

/-- A report goes on where another ends. -/
structure Report.Extends (r s : Report) : Prop where
  issues : r.issues <+: s.issues
  errors : r.errors ≤ s.errors
  warnings : r.warnings ≤ s.warnings

/-! ### One line -/

theorem any_isLetter_iff (letters : List Char) (c : Char) :
    letters.any (isLetter · c) = true ↔ c ∈ letters ∨ c ∈ letters.map Char.toLower := by
  simp only [List.any_eq_true, isLetter, Bool.or_eq_true, beq_iff_eq, and_or_left, exists_or,
    exists_eq_right', List.mem_map, @eq_comm _ c (Char.toLower _)]

/-- The characters that are let through are those on the list. -/
theorem isAllowed_iff (c : Char) : isAllowed c = true ↔ Allowed c := by
  have hlower : "GMXYZIJKFSPRT".toList.map Char.toLower = "gmxyzijkfsprt".toList := by decide
  unfold isAllowed Allowed
  rw [← hlower]
  simp only [Bool.or_eq_true, any_isLetter_iff, beq_iff_eq, List.mem_cons, List.not_mem_nil,
    or_false, or_assoc]

theorem isCodeWord_of_mem_wordsOf {upper : Char} {code : List Char} {word : String}
    (h : word ∈ wordsOf upper code) : IsCodeWord upper word := by
  obtain ⟨s, -, hs⟩ := List.mem_filterMap.mp h
  cases s with
  | nil => cases hs
  | cons c rest =>
    rw [wordAt?] at hs
    split at hs
    · rename_i hword
      obtain ⟨d, ds, hdigits⟩ := List.exists_cons_of_ne_nil hword.2
      refine ⟨d, ds, ?_, hdigits ▸ Text.digits_takeWhile rest⟩
      rw [← hdigits]
      exact (Option.some.inj hs).symm
    · cases hs

/-- A word is not the name of a rule, which has no digit after its first letter. -/
theorem IsCodeWord.ne {upper : Char} {word rule : String} (h : IsCodeWord upper word)
    (hrule : rule.toList.tail.head?.any Text.isDecimalDigit = false) : word ≠ rule := by
  obtain ⟨d, ds, rfl, hdigits⟩ := h
  rintro rfl
  rw [String.toList_ofList, List.tail_cons, List.head?_cons, Option.any_some,
    hdigits d List.mem_cons_self] at hrule
  cases hrule

theorem FoundIf.sublist {condition : Prop} {issue : Issue} {found : List Issue}
    (h : FoundIf condition issue found) : found.Sublist [issue] := by
  by_cases hcondition : condition
  · rw [h.holds hcondition]
  · rw [h.fails hcondition]
    exact List.nil_sublist _

section OneLine

variable {past : List (List Char)} {n : Nat} {code : List Char} {report : List Issue}

/-- The issues of a line are in the order of the rules. -/
theorem LineReport.grouped (h : LineReport past n code report) : Grouped n report := by
  obtain ⟨hfeed, hplunge, hlevel, hcharacters⟩ := h
  rename_i feed plunge characters
  have hwords : ∀ {upper : Char} {supported : List String},
      ∀ word ∈ (wordsOf upper code).filter (· ∉ supported),
        IsCodeWord upper word ∧ word ∉ supported := by
    intro upper supported word hword
    obtain ⟨hmem, hnew⟩ := List.mem_filter.mp hword
    exact ⟨isCodeWord_of_mem_wordsOf hmem, of_decide_eq_true hnew⟩
  obtain ⟨z, hsublist⟩ : ∃ z, plunge.Sublist [rapidPlunge n z] := by
    by_cases hsome : ∃ z, RapidPlunge past code z
    · obtain ⟨z, hz⟩ := hsome
      exact ⟨z, by rw [hplunge z hz]⟩
    · refine ⟨0.0, ?_⟩
      rw [hlevel fun z hz => hsome ⟨z, hz⟩]
      exact List.nil_sublist _
  exact .groups z hwords hwords hfeed.sublist hsublist hcharacters.sublist

theorem LineReport.line_of_mem (h : LineReport past n code report) {i : Issue} (hi : i ∈ report) :
    i.line = n := by
  rcases h.mem_iff.mp hi with hi | ⟨-, rfl⟩ | ⟨z, -, rfl⟩ | ⟨-, rfl⟩
  · rcases eq_unsupported_of_mem hi with ⟨word, -, rfl⟩ | ⟨word, -, rfl⟩ <;> rfl
  · rfl
  · rfl
  · rfl

/-- The errors of a line are those of one rule. -/
theorem LineReport.code_eq_iff (h : LineReport past n code report) {i : Issue} (hi : i ∈ report) :
    i.code = "SYNTAX_ERROR" ↔ i.severity = .error := by
  have hrule : "SYNTAX_ERROR".toList.tail.head?.any Text.isDecimalDigit = false := by decide
  rcases h.mem_iff.mp hi with hi | ⟨-, rfl⟩ | ⟨z, -, rfl⟩ | ⟨-, rfl⟩
  · rcases eq_unsupported_of_mem hi with ⟨word, hword, rfl⟩ | ⟨word, hword, rfl⟩
    · exact iff_of_false ((isCodeWord_of_mem_wordsOf hword).ne hrule) nofun
    · exact iff_of_false ((isCodeWord_of_mem_wordsOf hword).ne hrule) nofun
  · exact iff_of_false (by decide : "MISSING_FEED" ≠ "SYNTAX_ERROR") nofun
  · exact iff_of_false (by decide : "RAPID_PLUNGE" ≠ "SYNTAX_ERROR") nofun
  · exact iff_of_true rfl rfl

/-- There is an error on a line exactly if it holds a character that is not allowed. -/
theorem LineReport.exists_error_iff (h : LineReport past n code report) :
    (∃ i ∈ report, i.severity = .error) ↔ ∃ c ∈ code, ¬ Allowed c := by
  constructor
  · rintro ⟨i, hi, herror⟩
    rcases h.mem_iff.mp hi with hi | ⟨-, rfl⟩ | ⟨z, -, rfl⟩ | ⟨⟨c, hc, hrefused⟩, -⟩
    · rcases eq_unsupported_of_mem hi with ⟨word, -, rfl⟩ | ⟨word, -, rfl⟩ <;> cases herror
    · cases herror
    · cases herror
    · exact ⟨c, hc, by rw [← isAllowed_iff, hrefused]; nofun⟩
  · rintro ⟨c, hc, hrefused⟩
    rw [← isAllowed_iff, Bool.not_eq_true] at hrefused
    exact ⟨malformed n, h.mem_iff.mpr (.inr (.inr (.inr ⟨⟨c, hc, hrefused⟩, rfl⟩))), rfl⟩

end OneLine

/-! ### Lines that follow each other -/

section Lines

variable {lines past later : List (Nat × List Char)} {issues : List Issue}

/-- Issues are on the lines that were checked. -/
theorem Judged.line_mem (h : Judged lines issues) {i : Issue} (hi : i ∈ issues) :
    i.line ∈ lines.map (·.1) := by
  induction h with
  | start => cases hi
  | line n code _ hreport ih =>
    rw [List.map_append, List.mem_append]
    rcases List.mem_append.mp hi with hi | hi
    · exact .inl (ih hi)
    · rw [hreport.line_of_mem hi]
      exact .inr (by simp)

/-- The issues of the last line come last. -/
theorem Judged.exists_of_concat {n : Nat} {code : List Char} (h : Judged (past ++ [(n, code)]) issues) :
    ∃ earlier report, issues = earlier ++ report ∧ Judged past earlier ∧
      LineReport (past.map (·.2)) n code report := by
  generalize hlines : past ++ [(n, code)] = lines at h
  cases h with
  | start => simp at hlines
  | line n' code' hjudged hreport =>
    obtain ⟨rfl, hline⟩ := List.append_singleton_inj.mp hlines
    cases hline
    exact ⟨_, _, rfl, hjudged, hreport⟩

/-- The issues of the first lines come first, and are those of these lines alone. -/
theorem Judged.exists_of_append (h : Judged (past ++ later) issues) :
    ∃ earlier others, issues = earlier ++ others ∧ Judged past earlier ∧
      ∀ i ∈ others, i.line ∈ later.map (·.1) := by
  induction later using List.reverseRecOn generalizing issues with
  | nil => exact ⟨issues, [], by simp, by simpa using h, by simp⟩
  | append_singleton later last ih =>
    rw [← List.append_assoc] at h
    obtain ⟨before, report, rfl, hbefore, hreport⟩ := h.exists_of_concat
    obtain ⟨earlier, others, rfl, hpast, hothers⟩ := ih hbefore
    refine ⟨earlier, others ++ report, by simp, hpast, ?_⟩
    intro i hi
    rw [List.map_append, List.mem_append]
    rcases List.mem_append.mp hi with hi | hi
    · exact .inl (hothers i hi)
    · rw [hreport.line_of_mem hi]
      exact .inr (by simp)

/-- The issues of a line stand together, between those of the lines before and after it. -/
theorem Judged.split {n : Nat} {code : List Char} (h : Judged lines issues)
    (hlines : lines = past ++ (n, code) :: later) :
    ∃ earlier report others, issues = earlier ++ report ++ others ∧ Judged past earlier ∧
      LineReport (past.map (·.2)) n code report ∧ ∀ i ∈ others, i.line ∈ later.map (·.1) := by
  rw [hlines, ← List.singleton_append, ← List.append_assoc] at h
  obtain ⟨first, others, rfl, hfirst, hothers⟩ := h.exists_of_append
  obtain ⟨earlier, report, rfl, hpast, hreport⟩ := hfirst.exists_of_concat
  exact ⟨earlier, report, others, rfl, hpast, hreport, hothers⟩

/-- The issues are in the order of their lines. -/
theorem Judged.pairwise_line (h : Judged lines issues)
    (hlines : (lines.map (·.1)).Pairwise (· < ·)) : (issues.map (·.line)).Pairwise (· ≤ ·) := by
  induction h with
  | start => exact List.Pairwise.nil
  | line n code hjudged hreport ih =>
    rw [List.map_append, List.pairwise_append] at hlines
    obtain ⟨hpast, -, hlast⟩ := hlines
    rw [List.map_append, List.pairwise_append]
    refine ⟨ih hpast, ?_, ?_⟩
    · refine List.pairwise_of_forall_mem_list fun a ha b hb => ?_
      obtain ⟨i, hi, rfl⟩ := List.mem_map.mp ha
      obtain ⟨j, hj, rfl⟩ := List.mem_map.mp hb
      rw [hreport.line_of_mem hi, hreport.line_of_mem hj]
    · intro a ha b hb
      obtain ⟨i, hi, rfl⟩ := List.mem_map.mp ha
      obtain ⟨j, hj, rfl⟩ := List.mem_map.mp hb
      rw [hreport.line_of_mem hj]
      exact (hlast _ (hjudged.line_mem hi) n (by simp)).le

/-- On each line the issues are in the order of the rules, since no two lines have one number. -/
theorem Judged.grouped (h : Judged lines issues) (hlines : (lines.map (·.1)).Pairwise (· < ·))
    (n : Nat) : Grouped n (issues.filter (·.line = n)) := by
  have hnone : ∀ {found : List Issue}, (∀ i ∈ found, i.line ≠ n) →
      found.filter (·.line = n) = [] := by
    intro found hother
    exact List.filter_eq_nil_iff.mpr fun i hi => by simpa using hother i hi
  by_cases hn : n ∈ lines.map (·.1)
  · obtain ⟨⟨m, code⟩, hmem, hm⟩ := List.mem_map.mp hn
    obtain rfl : m = n := hm
    obtain ⟨past, later, hsplit⟩ := List.append_of_mem hmem
    obtain ⟨earlier, report, others, rfl, hearlier, hreport, hothers⟩ := h.split hsplit
    rw [hsplit, List.map_append, List.map_cons, List.pairwise_append, List.pairwise_cons] at hlines
    obtain ⟨-, ⟨hlater, -⟩, hpast⟩ := hlines
    have hown : report.filter (·.line = m) = report :=
      List.filter_eq_self.mpr fun i hi => by simpa using hreport.line_of_mem hi
    rw [List.filter_append, List.filter_append, hown, hnone, hnone, List.nil_append,
      List.append_nil]
    · exact hreport.grouped
    · exact fun i hi => (hlater _ (hothers i hi)).ne'
    · exact fun i hi => (hpast _ (hearlier.line_mem hi) _ List.mem_cons_self).ne
  · rw [hnone fun i hi hline => hn (hline ▸ h.line_mem hi)]
    exact @Grouped.groups n [] [] [] [] [] 0.0 nofun nofun (List.nil_sublist _)
      (List.nil_sublist _) (List.nil_sublist _)

theorem Judged.code_eq_iff (h : Judged lines issues) {i : Issue} (hi : i ∈ issues) :
    i.code = "SYNTAX_ERROR" ↔ i.severity = .error :=
  h.forall_of_line (fun hreport _ hi => hreport.code_eq_iff hi) i hi

/-- There is an error exactly if a checked line holds a character that is not allowed. -/
theorem Judged.exists_error_iff (h : Judged lines issues) :
    (∃ i ∈ issues, i.severity = .error) ↔ ∃ l ∈ lines, ∃ c ∈ l.2, ¬ Allowed c := by
  induction h with
  | start => simp
  | line n code _ hreport ih =>
    simp only [List.mem_append, or_and_right, exists_or, ih, hreport.exists_error_iff,
      List.mem_singleton, exists_eq_left]

end Lines

/-! ### The lines of a text -/

/-- The checked lines are in ascending order of their numbers. -/
theorem activeLines_increasing (source : String) :
    ((activeLines source).map (·.1)).Pairwise (· < ·) := by
  have hnumbers := Program.numberedLines_increasing source
  rw [List.pairwise_map] at hnumbers ⊢
  refine hnumbers.filterMap activeLine? fun l l' hlt active hactive active' hactive' => ?_
  rw [activeLine?] at hactive hactive'
  split at hactive <;> split at hactive' <;> cases hactive <;> cases hactive'
  exact Nat.succ_lt_succ hlt

theorem activeLine?_eq_some_iff {numbered : List Char × Nat} {l : Nat × List Char} :
    activeLine? numbered = some l ↔
      IsActive numbered.1 ∧ l = (numbered.2 + 1, Block.code (Text.trim numbered.1)) := by
  unfold activeLine?
  split <;> simp_all [eq_comm]

theorem exists_of_mem_activeLines {source : String} {l : Nat × List Char}
    (h : l ∈ activeLines source) :
    ∃ line k, line ∈ Text.lines source ∧ k < (Text.lines source).length ∧ IsActive line ∧
      l = (k + 1, Block.code (Text.trim line)) := by
  obtain ⟨numbered, hmem, hactive⟩ := List.mem_filterMap.mp h
  obtain ⟨hisActive, rfl⟩ := activeLine?_eq_some_iff.mp hactive
  exact ⟨numbered.1, numbered.2, List.fst_mem_of_mem_zipIdx hmem, List.snd_lt_of_mem_zipIdx hmem,
    hisActive, rfl⟩

theorem exists_mem_activeLines {source : String} {line : List Char}
    (h : line ∈ Text.lines source) (hactive : IsActive line) :
    ∃ n, (n, Block.code (Text.trim line)) ∈ activeLines source := by
  rw [← List.zipIdx_map_fst 0 (Text.lines source)] at h
  obtain ⟨numbered, hmem, rfl⟩ := List.mem_map.mp h
  exact ⟨_, List.mem_filterMap.mpr ⟨numbered, hmem, activeLine?_eq_some_iff.mpr ⟨hactive, rfl⟩⟩⟩

/-- Lines that are added at the end leave the checked lines before them as they are. -/
theorem activeLines_append (a b : String) :
    ∃ later, activeLines (a ++ "\n" ++ b) = activeLines a ++ later := by
  have happend := congrArg (List.filterMap activeLine?) (Program.numberedLines_append a b)
  rw [List.filterMap_append] at happend
  exact ⟨_, happend⟩

/-! ### The report -/

section Report

variable (source : String)

/-- Issues are on lines that the text has. -/
theorem inText_of_mem {i : Issue} (hi : i ∈ (check source).issues) :
    1 ≤ i.line ∧ i.line ≤ (Text.lines source).length := by
  obtain ⟨l, hl, hline⟩ := List.mem_map.mp ((check_judged source).line_mem hi)
  obtain ⟨line, k, -, hk, -, rfl⟩ := exists_of_mem_activeLines hl
  rw [← hline]
  exact ⟨Nat.succ_pos k, hk⟩

theorem errors_check :
    (check source).errors = ((check source).issues.filter (·.code = "SYNTAX_ERROR")).length := by
  refine (errors_ofIssues _).trans (congrArg List.length (List.filter_congr fun i hi => ?_))
  rw [decide_eq_decide]
  exact ((check_judged source).code_eq_iff hi).symm

/-- Every issue is counted once. -/
theorem errors_add_warnings_check :
    (check source).errors + (check source).warnings = (check source).issues.length := by
  have hle := List.length_filter_le (·.severity = .error) (check source).issues
  have herrors := errors_ofIssues (check source).issues
  have hwarnings : (check source).warnings = (check source).issues.length - (check source).errors :=
    rfl
  change (check source).errors = _ at herrors
  omega

/-- A text is valid exactly if its checked lines hold nothing but allowed characters. -/
theorem isValid_check_iff :
    (check source).isValid = true ↔ ∀ line ∈ Text.lines source, IsActive line →
      ∀ c ∈ Block.code (Text.trim line), Allowed c := by
  have herror := (check_judged source).exists_error_iff
  have hvalid : (check source).isValid = true ↔
      ¬ ∃ i ∈ (check source).issues, i.severity = .error := by
    rw [Report.isValid, beq_iff_eq]
    change ((check source).issues.filter _).length = 0 ↔ _
    simp
  rw [hvalid, herror]
  constructor
  · intro hnone line hline hactive c hc
    obtain ⟨n, hn⟩ := exists_mem_activeLines hline hactive
    by_contra hrefused
    exact hnone ⟨_, hn, c, hc, hrefused⟩
  · rintro hall ⟨l, hl, c, hc, hrefused⟩
    obtain ⟨line, k, hline, -, hactive, rfl⟩ := exists_of_mem_activeLines hl
    exact hrefused (hall line hline hactive c hc)

end Report

/-- The issues of a text come first among those of a longer one. -/
theorem issues_check_append (a b : String) :
    (check a).issues <+: (check (a ++ "\n" ++ b)).issues := by
  obtain ⟨later, hlines⟩ := activeLines_append a b
  have hjudged := check_judged (a ++ "\n" ++ b)
  rw [hlines] at hjudged
  obtain ⟨earlier, others, hissues, hearlier, -⟩ := hjudged.exists_of_append
  rw [hissues, hearlier.unique (check_judged a)]
  exact List.prefix_append _ _

/-- More lines only add issues at the end of a report. -/
theorem check_extends (a b : String) : (check a).Extends (check (a ++ "\n" ++ b)) where
  issues := issues_check_append a b
  errors := ((issues_check_append a b).sublist.filter _).length_le
  warnings := by
    have hsublist := ((issues_check_append a b).sublist.filter (·.severity = .warning)).length_le
    rwa [← warnings_ofIssues, ← warnings_ofIssues] at hsublist

/-- The report on every text is laid out in the order of its lines, and further lines extend it. -/
theorem check_laidOut (a b : String) :
    LaidOut a (check a) ∧ (check a).Extends (check (a ++ "\n" ++ b)) where
  left :=
    { ascending := (check_judged a).pairwise_line (activeLines_increasing a)
      inText := fun _ => inText_of_mem a
      grouped := (check_judged a).grouped (activeLines_increasing a)
      errors := errors_check a
      total := errors_add_warnings_check a
      valid := isValid_check_iff a }
  right := check_extends a b

end Milling.Lint
