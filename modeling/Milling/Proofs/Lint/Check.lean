import Milling.Proofs.Lint.History
/-!
What a check says.

Each rule of the checker is a condition on the code of a line and on the codes of the lines before
it (`MissingFeed`, `RapidPlunge`), without a running state. `LineReport` puts the rules together for
one line and `Judged` for some of the first lines; `check_explains` says that a check reports just
these issues.
-/

namespace Milling.Lint

/-! ### Rules -/

/-- Warnings for the G words and then the M words of a line that are not supported. -/
def unsupportedWords (n : Nat) (code : List Char) : List Issue :=
  ((wordsOf 'G' code).filter (· ∉ supportedG)).map (unsupported n "G") ++
    ((wordsOf 'M' code).filter (· ∉ supportedM)).map (unsupported n "M")

def missingFeed (n : Nat) : Issue :=
  ⟨n, .warning, "Cutting move without feed rate specified", "MISSING_FEED"⟩

def rapidPlunge (n : Nat) (z : Float) : Issue :=
  ⟨n, .warning,
    "Rapid plunge detected: Z" ++ Decimal.inMessage.write z ++ " (consider using G1)",
    "RAPID_PLUNGE"⟩

def malformed (n : Nat) : Issue :=
  ⟨n, .error, "Malformed command syntax", "SYNTAX_ERROR"⟩

/-- A line moves an axis while cutting, and neither it nor a line before it gives a feed rate. -/
structure MissingFeed (past : List (List Char)) (code : List Char) : Prop where
  moves : HasAxisWord code
  cutting : ∃ word ∈ cuttingG, lastModeWord? (past ++ [code]) = some word
  unfed : ∀ c ∈ past ++ [code], ∀ v, ¬ FeedWord c v

/-- A line gives a height below zero and below the latest one before it, and moves there at rapid
speed: it has the rapid word, or no G word at all while cutting is off. -/
structure RapidPlunge (past : List (List Char)) (code : List Char) (z : Float) : Prop where
  height : HeightWord code z
  negative : z < 0.0
  lower : ∃ last, Latest HeightWord past last ∧ z < last
  rapid : HasRapidWord code ∨
    (wordsOf 'G' code = [] ∧ ∀ word, lastModeWord? (past ++ [code]) = some word → word ∈ rapidG)

/-- An issue is found if a condition holds, and nothing if not. -/
structure FoundIf (condition : Prop) (issue : Issue) (found : List Issue) : Prop where
  holds : condition → found = [issue]
  fails : ¬ condition → found = []

/-- What is found on a line after the codes before it. -/
inductive LineReport (past : List (List Char)) (n : Nat) (code : List Char) : List Issue → Prop
  | rules {feed plunge characters : List Issue} :
      FoundIf (MissingFeed past code) (missingFeed n) feed →
      (∀ z, RapidPlunge past code z → plunge = [rapidPlunge n z]) →
      ((∀ z, ¬ RapidPlunge past code z) → plunge = []) →
      FoundIf (∃ c ∈ code, isAllowed c = false) (malformed n) characters →
      LineReport past n code (unsupportedWords n code ++ feed ++ plunge ++ characters)

/-- What is found on some of the first lines of a program that are checked. -/
inductive Judged : List (Nat × List Char) → List Issue → Prop
  | start : Judged [] []
  | line {past : List (Nat × List Char)} {issues report : List Issue} (n : Nat) (code : List Char) :
      Judged past issues → LineReport (past.map (·.2)) n code report →
      Judged (past ++ [(n, code)]) (issues ++ report)

/-! ### One line -/

/-- The warnings for unsupported words go through the G words and then the M words. -/
theorem codeIssues_eq (n : Nat) (code : List Char) :
    codeIssues n code = unsupportedWords n code := by
  unfold codeIssues unsupportedWords
  rw [codeWords_eq (by decide), codeWords_eq (by decide)]
  simp only [← List.contains_iff_mem, Bool.not_eq_true, Bool.decide_eq_false]

theorem foundIf_ite {condition : Prop} {b : Bool} (h : b = true ↔ condition) (issue : Issue) :
    FoundIf condition issue (if b then [issue] else []) where
  holds hcondition := if_pos (h.mpr hcondition)
  fails hcondition := if_neg (mt h.mp hcondition)

section Line

variable {m : Memory} {past : List (List Char)} {code : List Char}

/-- With a memory that agrees with the lines before, the feed rate is missed exactly where it is
missing. -/
theorem missingFeed_iff (h : m.Agrees past) :
    ((m.next code).cutting && (m.next code).feed.isNone && hasMovement code) = true ↔
      MissingFeed past code := by
  have hnext := h.next code
  have hfeed : (m.next code).feed = none ↔ ∀ c ∈ past ++ [code], ∀ v, ¬ FeedWord c v := by
    rw [← forall_not_latest_iff, Option.eq_none_iff_forall_ne_some]
    simp only [ne_eq, hnext.feed]
  rw [Bool.and_eq_true, Bool.and_eq_true, Option.isNone_iff_eq_none, hnext.cutting, hfeed,
    hasMovement_iff]
  constructor
  · rintro ⟨⟨hcutting, hunfed⟩, hmoves⟩
    exact ⟨hmoves, hcutting, hunfed⟩
  · rintro ⟨hmoves, hcutting, hunfed⟩
    exact ⟨⟨hcutting, hunfed⟩, hmoves⟩

theorem isModeWord_of_last {codes : List (List Char)} {word : String}
    (h : lastModeWord? codes = some word) : IsModeWord word := by
  have hmem := (List.mem_filter.mp (List.mem_of_getLast? h)).2
  exact of_decide_eq_true hmem

/-- Cutting is off if the last word that starts or ends it, if there is one, ends it. -/
theorem cutting_eq_false_iff (h : m.Agrees past) :
    m.cutting = false ↔ ∀ word, lastModeWord? past = some word → word ∈ rapidG := by
  have hdisjoint : ∀ word ∈ cuttingG, word ∉ rapidG := by decide
  rw [← Bool.not_eq_true, h.cutting]
  constructor
  · intro hoff word hlast
    exact (isModeWord_of_last hlast).resolve_left fun hcutting => hoff ⟨word, hcutting, hlast⟩
  · rintro hrapid ⟨word, hcutting, hlast⟩
    exact hdisjoint word hcutting (hrapid word hlast)

/-- With a memory that agrees with the lines before, a line is taken as rapid exactly if it is. -/
theorem isRapidLine_iff (h : m.Agrees past) :
    isRapidLine (m.next code) code = true ↔ HasRapidWord code ∨
      (wordsOf 'G' code = [] ∧
        ∀ word, lastModeWord? (past ++ [code]) = some word → word ∈ rapidG) := by
  rw [isRapidLine, Bool.or_eq_true, Bool.and_eq_true, hasRapidWord_iff, List.isEmpty_iff,
    codeWords_eq (by decide), Bool.not_eq_true', cutting_eq_false_iff (h.next code)]

theorem HeightWord.unique {y z : Float} (hy : HeightWord code y) (hz : HeightWord code z) :
    y = z := by
  rw [← height?_eq_some_iff] at hy hz
  exact Option.some.inj (hy.symm.trans hz)

theorem plungeIssues_of_rapidPlunge (h : m.Agrees past) {n : Nat} {z : Float}
    (hplunge : RapidPlunge past code z) :
    plungeIssues n m (m.next code) code = [rapidPlunge n z] := by
  obtain ⟨hheight, hnegative, ⟨last, hlast, hlower⟩, hrapid⟩ := hplunge
  rw [plungeIssues, height?_eq_some_iff.mpr hheight, (h.height last).mpr hlast]
  simp only [(isRapidLine_iff h).mpr hrapid, hnegative, hlower]
  rfl

theorem plungeIssues_of_not (h : m.Agrees past) {n : Nat}
    (hnone : ∀ z, ¬ RapidPlunge past code z) :
    plungeIssues n m (m.next code) code = [] := by
  unfold plungeIssues
  split
  · rename_i z last hheight hlast
    split
    · rename_i hfound
      simp only [Bool.and_eq_true, decide_eq_true_eq] at hfound
      obtain ⟨⟨hrapid, hnegative⟩, hlower⟩ := hfound
      exact absurd ⟨height?_eq_some_iff.mp hheight, hnegative,
        ⟨last, (h.height last).mp hlast, hlower⟩, (isRapidLine_iff h).mp hrapid⟩ (hnone z)
    · rfl
  · rfl

theorem characterIssues_foundIf (n : Nat) (code : List Char) :
    FoundIf (∃ c ∈ code, isAllowed c = false) (malformed n) (characterIssues n code) := by
  constructor
  · rintro ⟨c, hc, hrefused⟩
    refine if_neg fun hall => ?_
    rw [List.all_eq_true.mp hall c hc] at hrefused
    cases hrefused
  · intro hnone
    refine if_pos (List.all_eq_true.mpr fun c hc => ?_)
    by_contra hrefused
    exact hnone ⟨c, hc, Bool.eq_false_iff.mpr hrefused⟩

/-- What is found on a line is what there is to be found after the lines before. -/
theorem lineReport_lineIssues (h : m.Agrees past) (n : Nat) (code : List Char) :
    LineReport past n code (lineIssues n m code) := by
  rw [lineIssues, codeIssues_eq]
  refine .rules ?_ ?_ ?_ (characterIssues_foundIf n code)
  · exact foundIf_ite (missingFeed_iff h) (missingFeed n)
  · exact fun z => plungeIssues_of_rapidPlunge h
  · exact plungeIssues_of_not h

end Line

/-! ### All lines -/

/-- A pass in progress has found what is to be found on the lines so far, and remembers what they
tell. -/
structure Pass.Judges (s : Pass) (past : List (Nat × List Char)) : Prop where
  memory : s.memory.Agrees (past.map (·.2))
  issues : Judged past s.issues.toList

theorem Pass.judges_initial : Pass.initial.Judges [] :=
  ⟨Memory.agrees_initial, .start⟩

/-- One more line leaves a pass that has found everything up to it. -/
theorem Pass.Judges.line {s : Pass} {past : List (Nat × List Char)} (h : s.Judges past)
    (numbered : List Char × Nat) :
    (s.line numbered).Judges (past ++ (activeLine? numbered).toList) := by
  unfold Pass.line activeLine?
  rw [activeCode_eq]
  by_cases hactive : IsActive numbered.1
  · simp only [if_pos hactive, Option.toList_some]
    constructor
    · rw [List.map_append]
      exact h.memory.next _
    · rw [Array.toList_appendList]
      exact .line _ _ h.issues (lineReport_lineIssues h.memory _ _)
  · simpa only [if_neg hactive, Option.toList_none, List.append_nil] using h

/-- Some more lines leave a pass that has found everything up to them. -/
theorem Pass.Judges.lines {s : Pass} {past : List (Nat × List Char)} (h : s.Judges past)
    (numbered : List (List Char × Nat)) :
    (numbered.foldl Pass.line s).Judges (past ++ numbered.filterMap activeLine?) := by
  induction numbered generalizing s past with
  | nil => simpa using h
  | cons first rest ih =>
    have hactive : (first :: rest).filterMap activeLine? =
        (activeLine? first).toList ++ rest.filterMap activeLine? := by
      rw [List.filterMap_cons]
      cases activeLine? first <;> rfl
    rw [hactive, ← List.append_assoc]
    exact ih (h.line first)

/-- The check finds on every line what is to be found there. -/
theorem check_judged (source : String) : Judged (activeLines source) (check source).issues :=
  (Pass.judges_initial.lines _).issues

/-! ### Single issues -/

theorem FoundIf.mem_iff {condition : Prop} {issue i : Issue} {found : List Issue}
    (h : FoundIf condition issue found) : i ∈ found ↔ condition ∧ i = issue := by
  by_cases hcondition : condition
  · simp [h.holds hcondition, hcondition]
  · simp [h.fails hcondition, hcondition]

theorem eq_unsupported_of_mem {n : Nat} {code : List Char} {i : Issue}
    (h : i ∈ unsupportedWords n code) :
    (∃ word ∈ wordsOf 'G' code, i = unsupported n "G" word) ∨
      ∃ word ∈ wordsOf 'M' code, i = unsupported n "M" word := by
  rcases List.mem_append.mp h with h | h
  · obtain ⟨word, hword, rfl⟩ := List.mem_map.mp h
    exact .inl ⟨word, (List.mem_filter.mp hword).1, rfl⟩
  · obtain ⟨word, hword, rfl⟩ := List.mem_map.mp h
    exact .inr ⟨word, (List.mem_filter.mp hword).1, rfl⟩

/-- An issue of a line comes from one of the rules, whose condition holds. -/
theorem LineReport.mem_iff {past : List (List Char)} {n : Nat} {code : List Char}
    {report : List Issue} (h : LineReport past n code report) {i : Issue} :
    i ∈ report ↔ i ∈ unsupportedWords n code ∨ (MissingFeed past code ∧ i = missingFeed n) ∨
      (∃ z, RapidPlunge past code z ∧ i = rapidPlunge n z) ∨
      ((∃ c ∈ code, isAllowed c = false) ∧ i = malformed n) := by
  obtain ⟨hfeed, hplunge, hlevel, hcharacters⟩ := h
  rename_i feed plunge characters
  have hmem : i ∈ plunge ↔ ∃ z, RapidPlunge past code z ∧ i = rapidPlunge n z := by
    constructor
    · intro hi
      by_cases hsome : ∃ z, RapidPlunge past code z
      · obtain ⟨z, hz⟩ := hsome
        rw [hplunge z hz, List.mem_singleton] at hi
        exact ⟨z, hz, hi⟩
      · rw [hlevel fun z hz => hsome ⟨z, hz⟩] at hi
        cases hi
    · rintro ⟨z, hz, rfl⟩
      rw [hplunge z hz]
      exact List.mem_singleton_self _
  rw [List.mem_append, List.mem_append, List.mem_append, hfeed.mem_iff, hmem, hcharacters.mem_iff,
    or_assoc, or_assoc]

/-- Only characters that no word can hold are errors. -/
theorem LineReport.eq_malformed {past : List (List Char)} {n : Nat} {code : List Char}
    {report : List Issue} (h : LineReport past n code report) {i : Issue} (hi : i ∈ report)
    (herror : i.severity = .error) : i = malformed i.line := by
  rcases h.mem_iff.mp hi with hi | ⟨-, rfl⟩ | ⟨z, -, rfl⟩ | ⟨-, rfl⟩
  · rcases eq_unsupported_of_mem hi with ⟨word, -, rfl⟩ | ⟨word, -, rfl⟩ <;> cases herror
  · cases herror
  · cases herror
  · rfl

/-- What holds of the issues of every line holds of all issues. -/
theorem Judged.forall_of_line {P : Issue → Prop} {lines : List (Nat × List Char)}
    {issues : List Issue} (h : Judged lines issues)
    (hline : ∀ {past n code report}, LineReport past n code report → ∀ i ∈ report, P i) :
    ∀ i ∈ issues, P i := by
  induction h with
  | start =>
    intro i hi
    cases hi
  | line n code _ hreport ih =>
    intro i hi
    rcases List.mem_append.mp hi with hi | hi
    · exact ih i hi
    · exact hline hreport i hi

/-- The only errors are characters that no word can hold. -/
theorem Judged.eq_malformed {lines : List (Nat × List Char)} {issues : List Issue}
    (h : Judged lines issues) {i : Issue} (hi : i ∈ issues) (herror : i.severity = .error) :
    i = malformed i.line :=
  h.forall_of_line (fun hreport _ hi => hreport.eq_malformed hi) i hi herror

/-! ### The report -/

theorem FoundIf.unique {condition : Prop} {issue : Issue} {found found' : List Issue}
    (h : FoundIf condition issue found) (h' : FoundIf condition issue found') : found = found' := by
  by_cases hcondition : condition
  · rw [h.holds hcondition, h'.holds hcondition]
  · rw [h.fails hcondition, h'.fails hcondition]

theorem LineReport.unique {past : List (List Char)} {n : Nat} {code : List Char}
    {report report' : List Issue} (h : LineReport past n code report)
    (h' : LineReport past n code report') : report = report' := by
  obtain ⟨hfeed, hplunge, hlevel, hcharacters⟩ := h
  obtain ⟨hfeed', hplunge', hlevel', hcharacters'⟩ := h'
  rw [hfeed.unique hfeed', hcharacters.unique hcharacters']
  by_cases hsome : ∃ z, RapidPlunge past code z
  · obtain ⟨z, hz⟩ := hsome
    rw [hplunge z hz, hplunge' z hz]
  · have hnone : ∀ z, ¬ RapidPlunge past code z := fun z hz => hsome ⟨z, hz⟩
    rw [hlevel hnone, hlevel' hnone]

/-- The lines tell all that is to be found on them. -/
theorem Judged.unique {lines : List (Nat × List Char)} {issues issues' : List Issue}
    (h : Judged lines issues) (h' : Judged lines issues') : issues = issues' := by
  induction h generalizing issues' with
  | start =>
    generalize hlines : [] = lines at h'
    cases h' with
    | start => rfl
    | line => simp at hlines
  | @line past issues report n code _ hreport ih =>
    -- Both derivations end with the rule for the last line, which is told apart from those before.
    generalize hlines : past ++ [(n, code)] = lines at h'
    cases h' with
    | start => simp at hlines
    | line n' code' hjudged hreport' =>
      obtain ⟨rfl, hline⟩ := List.append_singleton_inj.mp hlines
      cases hline
      rw [ih hjudged, hreport.unique hreport']

/-- A report says just what is to be found on the lines of a text, in their order, and counts it. -/
structure Explains (source : String) (r : Report) : Prop where
  issues : ∀ found, Judged (activeLines source) found ↔ found = r.issues
  errors : r.errors = (r.issues.filter (·.severity = .error)).length
  warnings : r.warnings = (r.issues.filter (·.severity = .warning)).length
  malformed : ∀ i ∈ r.issues, i.severity = .error → i = malformed i.line

theorem errors_ofIssues (issues : List Issue) :
    (Report.ofIssues issues).errors = (issues.filter (·.severity = .error)).length := rfl

theorem warnings_ofIssues (issues : List Issue) :
    (Report.ofIssues issues).warnings = (issues.filter (·.severity = .warning)).length := by
  have hsplit := List.length_eq_length_filter_add (l := issues) (·.severity = .error)
  have hrest : (fun i : Issue => !decide (i.severity = .error)) =
      fun i => decide (i.severity = .warning) := by
    funext i
    cases i.severity <;> rfl
  have herrors := errors_ofIssues issues
  rw [hrest] at hsplit
  change issues.length - (Report.ofIssues issues).errors = _
  omega

/-- What is checked line by line with a running memory is what the rules say of the lines and their
past. -/
theorem check_explains (source : String) : Explains source (check source) where
  issues found := by
    constructor
    · intro hfound
      exact hfound.unique (check_judged source)
    · rintro rfl
      exact check_judged source
  errors := errors_ofIssues _
  warnings := warnings_ofIssues _
  malformed _ hi := (check_judged source).eq_malformed hi

end Milling.Lint
