import Milling.Lint.Check
import Milling.Proofs.Block.LetterCase
import Milling.Proofs.Lint.Pattern
/-!
Checking in lower case.

The checker looks for letters in either case, for digits, blanks and signs, and it writes the words
that it reports in upper case. So it says the same of a program in lower case (`check_toLower`).
-/

namespace Milling.Lint

open Text

section Letter

variable {upper : Char} (hletter : IgnoresCase (isLetter upper))

include hletter

/-- The words of a letter are the same in either case, since they are written in upper case. -/
theorem codeWords_lower (s : List Char) : codeWords upper (lower s) = codeWords upper s := by
  induction s using codeWords.induct upper with
  | case1 => simp [codeWords]
  | case2 c rest digits hempty ih =>
    rw [lower_cons, codeWords, codeWords, takeWhile_isDecimalDigit_lower, hletter c, ih]
    exact (if_pos hempty).trans (if_pos hempty).symm
  | case3 c rest digits hempty ih =>
    rw [lower_cons, codeWords, codeWords, takeWhile_isDecimalDigit_lower, hletter c, lower_drop]
    refine (if_neg hempty).trans (Eq.trans ?_ (if_neg hempty).symm)
    exact congrArg (String.ofList (upper :: digits) :: ·) ih

/-- A number without letters is found after the same letter in either case. -/
theorem firstAfter_lower {scan : List Char → Option (List Char)}
    (hscan : ∀ s, scan (lower s) = scan s) (s : List Char) :
    firstAfter upper scan (lower s) = firstAfter upper scan s := by
  induction s with
  | nil => rfl
  | cons c rest ih => rw [lower_cons, firstAfter, firstAfter, hletter c, hscan, ih]

end Letter

theorem ignoresCase_isLetter_G : IgnoresCase (isLetter 'G') :=
  ignoresCase_iff.mpr (by decide)

theorem ignoresCase_isLetter_M : IgnoresCase (isLetter 'M') :=
  ignoresCase_iff.mpr (by decide)

theorem feed?_lower (s : List Char) : feed? (lower s) = feed? s := by
  have hletter : IgnoresCase (isLetter 'F') := ignoresCase_iff.mpr (by decide)
  have hscan : ∀ s, feedAt? (lower s) = feedAt? s :=
    finds_feedAt?.lower fun _ h => Block.uncased_of_isDecimal h
  rw [feed?, feed?, firstAfter_lower hletter hscan]

theorem height?_lower (s : List Char) : height? (lower s) = height? s := by
  have hletter : IgnoresCase (isLetter 'Z') := ignoresCase_iff.mpr (by decide)
  rw [height?, height?, firstAfter_lower hletter Block.numberAt?_lower]

/-- Something is part of a text in either case if neither its first character nor what comes after
depends on the case. -/
theorem hasPart_lower {kind : Char → Prop} {start : List Char → Prop}
    (hkind : ∀ c : Char, kind c.toLower ↔ kind c) (hstart : ∀ s, start (lower s) ↔ start s)
    (s : List Char) : HasPart kind start (lower s) ↔ HasPart kind start s := by
  induction s with
  | nil => rfl
  | cons c rest ih => rw [lower_cons, hasPart_cons, hasPart_cons, hkind, hstart, ih]

theorem startsNumber_lower (s : List Char) : StartsNumber (lower s) ↔ StartsNumber s := by
  have hfirst : IgnoresCase fun d => d = '-' ∨ d = '.' ∨ isDecimalDigit d = true :=
    ignoresCase_iff.mpr (by decide)
  cases s with
  | nil => rfl
  | cons d after =>
    constructor
    · rintro ⟨_, _, h, hd⟩
      obtain ⟨rfl, -⟩ := List.cons.inj h
      exact ⟨d, after, rfl, (hfirst d).mp hd⟩
    · rintro ⟨_, _, h, hd⟩
      obtain ⟨rfl, -⟩ := List.cons.inj h
      exact ⟨d.toLower, lower after, rfl, (hfirst d).mpr hd⟩

theorem hasMovement_lower (s : List Char) : hasMovement (lower s) = hasMovement s := by
  have haxis : IgnoresCase IsAxis := ignoresCase_iff.mpr (by unfold IsAxis; decide)
  rw [Bool.eq_iff_iff, hasMovement_iff, hasMovement_iff]
  exact hasPart_lower (fun c => iff_of_eq (haxis c)) startsNumber_lower s

theorem zerosThenBlank_lower (s : List Char) : zerosThenBlank (lower s) = zerosThenBlank s := by
  have hzero : Uncased '0' := by decide
  have hne : ∀ {c : Char}, c ≠ '0' → c.toLower ≠ '0' := mt (hzero.toLower_eq_iff _).mp
  cases s with
  | nil => rfl
  | cons c s =>
    by_cases hc : c = '0'
    · subst hc
      cases s with
      | nil => rfl
      | cons d s =>
        by_cases hd : d = '0'
        · subst hd
          cases s with
          | nil => rfl
          | cons e s => exact ignoresCase_isBlank e
        · rw [lower_cons, lower_cons, hzero.toLower, zerosThenBlank_zero (hne hd),
            zerosThenBlank_zero hd, ignoresCase_isBlank d]
    · rw [lower_cons, zerosThenBlank_cons (hne hc), zerosThenBlank_cons hc, ignoresCase_isBlank c]

theorem hasRapidWord_lower (s : List Char) : hasRapidWord (lower s) = hasRapidWord s := by
  rw [Bool.eq_iff_iff, hasRapidWord_iff, hasRapidWord_iff]
  refine hasPart_lower (fun c => ?_) (fun s => ?_) s
  · rw [ignoresCase_isLetter_G c]
  · rw [← zerosThenBlank_iff, zerosThenBlank_lower, zerosThenBlank_iff]

theorem ignoresCase_isAllowed : IgnoresCase isAllowed :=
  ignoresCase_iff.mpr (by decide)

theorem all_isAllowed_lower (s : List Char) : (lower s).all isAllowed = s.all isAllowed := by
  have h : isAllowed ∘ Char.toLower = isAllowed := funext ignoresCase_isAllowed
  rw [lower, List.all_map, h]

/-- The same lines are checked in either case. -/
theorem activeCode_lower (line : List Char) :
    activeCode (lower line) = (activeCode line).map lower := by
  have hskipped : IgnoresCase fun c => c == '(' || c == ';' || c == '%' :=
    ignoresCase_iff.mpr (by decide)
  unfold activeCode
  rw [trim_lower]
  cases trim line with
  | nil => rfl
  | cons c rest =>
    have hc := hskipped c
    simp only [lower_cons] at hc ⊢
    rw [hc, ← lower_cons, Block.code_lower, Block.isEmpty_lower]
    split
    · rfl
    · split <;> rfl

theorem next_lower (m : Memory) (code : List Char) : m.next (lower code) = m.next code := by
  unfold Memory.next
  rw [codeWords_lower ignoresCase_isLetter_G, feed?_lower, height?_lower]

/-- The issues of a line do not depend on the case of its letters. -/
theorem lineIssues_lower (line : Nat) (m : Memory) (code : List Char) :
    lineIssues line m (lower code) = lineIssues line m code := by
  simp only [lineIssues, codeIssues, feedIssues, plungeIssues, isRapidLine, characterIssues,
    next_lower, codeWords_lower ignoresCase_isLetter_G, codeWords_lower ignoresCase_isLetter_M,
    hasMovement_lower, height?_lower, hasRapidWord_lower, all_isAllowed_lower]
  rfl

/-- A line is checked by its code only. -/
theorem line_congr {line line' : List Char} (n : Nat) (s : Pass)
    (h : activeCode line' = activeCode line) : s.line (line', n) = s.line (line, n) := by
  unfold Pass.line
  rw [h]

theorem line_lower (line : List Char) (n : Nat) (s : Pass) :
    s.line (lower line, n) = s.line (line, n) := by
  unfold Pass.line
  dsimp only
  rw [activeCode_lower]
  cases activeCode line with
  | none => rfl
  | some code =>
    simp only [Option.map_some, lineIssues_lower, next_lower]

end Milling.Lint
