import Milling.Proofs.Text.Blank
import Milling.Proofs.Text.Lines
import Milling.Proofs.Text.Match
/-!
Letters in lower case.

Lowering a text changes the capital letters of ASCII only, so what a function says about characters
stays the same if it says the same of each capital and its small letter (`ignoresCase_iff`). Blanks,
digits and line feeds are no letters; cutting and trimming a text goes along with lowering it.
-/

namespace Milling.Text

def capital (n : Fin 26) : Char :=
  Char.ofNat (65 + n)

/-- A function does not tell a letter in upper case from the one in lower case. -/
def IgnoresCase {α : Type} (f : Char → α) : Prop :=
  ∀ c : Char, f c.toLower = f c

theorem toLower_of_ne_capital {c : Char} (h : ∀ n, capital n ≠ c) : c.toLower = c := by
  unfold Char.toLower
  split
  · rename_i hrange
    have hlow : 65 ≤ c.toNat := hrange.1
    have hhigh : c.toNat ≤ 90 := hrange.2
    refine absurd ?_ (h ⟨c.toNat - 65, by omega⟩)
    rw [capital, Nat.add_sub_cancel' hlow, Char.ofNat_toNat]
  · rfl

/-- A function ignores case if it does so on the capitals of ASCII, the only letters that change. -/
theorem ignoresCase_iff {α : Type} {f : Char → α} :
    IgnoresCase f ↔ ∀ n, f (capital n).toLower = f (capital n) := by
  constructor
  · intro h n
    exact h (capital n)
  · intro h c
    by_cases hc : ∃ n, capital n = c
    · obtain ⟨n, rfl⟩ := hc
      exact h n
    · rw [toLower_of_ne_capital fun n hn => hc ⟨n, hn⟩]

theorem ignoresCase_isBlank : IgnoresCase isBlank :=
  ignoresCase_iff.mpr (by decide)

theorem ignoresCase_isDecimalDigit : IgnoresCase isDecimalDigit :=
  ignoresCase_iff.mpr (by decide)

/-- A character is neither a capital nor the small letter of one. -/
def Uncased (d : Char) : Prop :=
  ∀ n, capital n ≠ d ∧ (capital n).toLower ≠ d

instance (d : Char) : Decidable (Uncased d) :=
  Nat.decidableForallFin _

/-- A character without case is what no other turns into. -/
theorem Uncased.toLower_eq_iff {d : Char} (h : Uncased d) (c : Char) :
    c.toLower = d ↔ c = d := by
  by_cases hc : ∃ n, capital n = c
  · obtain ⟨n, rfl⟩ := hc
    exact iff_of_false (h n).2 (h n).1
  · rw [toLower_of_ne_capital fun n hn => hc ⟨n, hn⟩]

theorem Uncased.toLower {d : Char} (h : Uncased d) : d.toLower = d :=
  (h.toLower_eq_iff d).mpr rfl

theorem Uncased.beq_toLower {d : Char} (h : Uncased d) (c : Char) :
    (c.toLower == d) = (c == d) := by
  rw [Bool.eq_iff_iff, beq_iff_eq, beq_iff_eq, h.toLower_eq_iff]

theorem Uncased.ignoresCase_bne {d : Char} (h : Uncased d) : IgnoresCase (· != d) := by
  intro c
  exact congrArg (!·) (h.beq_toLower c)

/-- Digits of any script have no case. -/
theorem uncased_of_isDecimalDigit {d : Char} (h : isDecimalDigit d = true) : Uncased d := by
  have hletter : ∀ n, isDecimalDigit (capital n) = false ∧
      isDecimalDigit (capital n).toLower = false := by
    decide
  intro n
  constructor
  · rintro rfl
    exact absurd h (by simp [(hletter n).1])
  · rintro rfl
    exact absurd h (by simp [(hletter n).2])

def lower (s : List Char) : List Char :=
  s.map Char.toLower

@[simp] theorem lower_nil : lower [] = [] := rfl

@[simp] theorem lower_cons (c : Char) (s : List Char) : lower (c :: s) = c.toLower :: lower s := rfl

theorem lower_drop (s : List Char) (n : Nat) : (lower s).drop n = lower (s.drop n) :=
  List.map_drop.symm

theorem takeWhile_lower {p : Char → Bool} (h : IgnoresCase p) (s : List Char) :
    (lower s).takeWhile p = lower (s.takeWhile p) := by
  have hp : p ∘ Char.toLower = p := funext h
  rw [lower, List.takeWhile_map, hp]
  rfl

theorem dropWhile_lower {p : Char → Bool} (h : IgnoresCase p) (s : List Char) :
    (lower s).dropWhile p = lower (s.dropWhile p) := by
  have hp : p ∘ Char.toLower = p := funext h
  rw [lower, List.dropWhile_map, hp]
  rfl

theorem Uncased.mem_lower_iff {d : Char} (h : Uncased d) {s : List Char} :
    d ∈ lower s ↔ d ∈ s := by
  simp only [lower, List.mem_map, h.toLower_eq_iff, exists_eq_right]

theorem Uncased.contains_lower {d : Char} (h : Uncased d) (s : List Char) :
    (lower s).contains d = s.contains d := by
  rw [Bool.eq_iff_iff, List.contains_iff_mem, List.contains_iff_mem, h.mem_lower_iff]

/-- Digits have no case. -/
theorem takeWhile_isDecimalDigit_lower (s : List Char) :
    (lower s).takeWhile isDecimalDigit = s.takeWhile isDecimalDigit := by
  rw [takeWhile_lower ignoresCase_isDecimalDigit]
  exact (List.map_congr_left fun c hc =>
    (uncased_of_isDecimalDigit (List.mem_takeWhile_imp hc)).toLower).trans (List.map_id _)

/-- A text without letters stands at the start of another one in lower case as it stands there in
either case. -/
theorem prefix_lower_iff {v s : List Char} (hv : ∀ c ∈ v, Uncased c) : v <+: lower s ↔ v <+: s := by
  induction v generalizing s with
  | nil => simp
  | cons d v ih =>
    cases s with
    | nil => rfl
    | cons c s =>
      have hd : d = c.toLower ↔ d = c := by
        rw [eq_comm, (hv d List.mem_cons_self).toLower_eq_iff, eq_comm]
      rw [lower_cons, List.cons_prefix_cons, List.cons_prefix_cons, hd,
        ih fun c hc => hv c (List.mem_cons_of_mem d hc)]

/-- A scanner whose language has no letters finds the same in lower case. -/
theorem Finds.lower {scan : List Char → Option (List Char)} {language : List Char → Prop}
    (h : Finds scan language) (huncased : ∀ v, language v → ∀ c ∈ v, Uncased c) (s : List Char) :
    scan (lower s) = scan s := by
  refine Option.ext fun w => ?_
  rw [h.eq_some_iff, h.eq_some_iff]
  constructor
  · rintro ⟨hmem, hstart, hgreatest⟩
    refine ⟨hmem, (prefix_lower_iff (huncased w hmem)).mp hstart, fun v hv hvs => ?_⟩
    exact hgreatest v hv ((prefix_lower_iff (huncased v hv)).mpr hvs)
  · rintro ⟨hmem, hstart, hgreatest⟩
    refine ⟨hmem, (prefix_lower_iff (huncased w hmem)).mpr hstart, fun v hv hvs => ?_⟩
    exact hgreatest v hv ((prefix_lower_iff (huncased v hv)).mp hvs)

/-- Blanks have no case, so a text is trimmed in either case alike. -/
theorem trim_lower (s : List Char) : trim (lower s) = lower (trim s) := by
  unfold trim trimLeft trimRight
  rw [dropWhile_lower ignoresCase_isBlank, lower, ← List.map_reverse]
  change ((lower _).dropWhile isBlank).reverse = _
  rw [dropWhile_lower ignoresCase_isBlank, lower, ← List.map_reverse]
  rfl

theorem splitOn_lower (s : List Char) :
    (lower s).splitOn '\n' = (s.splitOn '\n').map lower := by
  induction s with
  | nil => rfl
  | cons c rest ih =>
    have hfeed : (c.toLower == '\n') = (c == '\n') :=
      Uncased.beq_toLower (by decide) c
    rw [lower_cons, List.splitOn_cons_eq_if_modifyHead, List.splitOn_cons_eq_if_modifyHead, hfeed,
      ih]
    obtain ⟨first, others, hrest⟩ := List.exists_cons_of_ne_nil (List.splitOn_ne_nil '\n' rest)
    rw [hrest]
    split <;> rfl

theorem toList_toLower (s : String) : s.toLower.toList = lower s.toList :=
  String.toList_map

theorem lines_toLower (source : String) : lines source.toLower = (lines source).map lower := by
  rw [lines, toList_toLower, splitOn_lower, lines]

end Milling.Text
