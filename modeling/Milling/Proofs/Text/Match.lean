import Mathlib.Data.List.Infix
import Mathlib.Data.List.TakeWhile
import Milling.Text.Digit
/-!
What a scanner finds.

A language is a predicate on texts. A scanner finds the longest text of its language at the start of
what it reads (`Finds`), and a search finds the first character of a kind that such a text follows
(`FirstMatch`), or whatever else stands at the first place where it can stand (`FoundFirst`). All of
them say what is found without saying how.
-/

namespace Milling.Text

/-- The longest text of a language at the start of a text. -/
structure Longest (language : List Char → Prop) (s w : List Char) : Prop where
  mem : language w
  isPrefix : w <+: s
  greatest : ∀ v, language v → v <+: s → v.length ≤ w.length

theorem Longest.unique {language : List Char → Prop} {s v w : List Char}
    (hv : Longest language s v) (hw : Longest language s w) : v = w := by
  have hlength : v.length = w.length :=
    Nat.le_antisymm (hw.greatest v hv.mem hv.isPrefix) (hv.greatest w hw.mem hw.isPrefix)
  have hstart : v <+: w :=
    List.prefix_of_prefix_length_le hv.isPrefix hw.isPrefix (Nat.le_of_eq hlength)
  exact hstart.eq_of_length hlength

/-- A scanner finds the longest text of a language, and nothing only if there is none. -/
structure Finds (scan : List Char → Option (List Char)) (language : List Char → Prop) : Prop where
  some : ∀ {s w}, scan s = some w → Longest language s w
  none : ∀ {s}, scan s = none → ∀ v, language v → ¬ v <+: s

/-- A scanner that finds the longest text finds nothing else. -/
theorem Finds.eq_some_iff {scan : List Char → Option (List Char)} {language : List Char → Prop}
    (h : Finds scan language) {s w : List Char} : scan s = .some w ↔ Longest language s w := by
  constructor
  · exact h.some
  · intro hw
    cases hscan : scan s with
    | none => exact absurd hw.isPrefix (h.none hscan w hw.mem)
    | some v => rw [(h.some hscan).unique hw]

/-- The text of a language after the first character of a kind that has one after it. -/
inductive FirstMatch (kind : Char → Bool) (language : List Char → Prop) :
    List Char → List Char → Prop
  | here {c : Char} {rest w : List Char} : kind c = true → Longest language rest w →
      FirstMatch kind language (c :: rest) w
  | later {c : Char} {rest w : List Char} :
      (kind c = true → ∀ v, language v → ¬ v <+: rest) → FirstMatch kind language rest w →
      FirstMatch kind language (c :: rest) w

theorem FirstMatch.unique {kind : Char → Bool} {language : List Char → Prop} {s v w : List Char}
    (hv : FirstMatch kind language s v) (hw : FirstMatch kind language s w) : v = w := by
  induction hv with
  | here hkind hlongest =>
    cases hw with
    | here _ hlongest' => exact hlongest.unique hlongest'
    | later hnone _ => exact absurd hlongest.isPrefix (hnone hkind _ hlongest.mem)
  | later hnone _ ih =>
    cases hw with
    | here hkind hlongest => exact absurd hlongest.isPrefix (hnone hkind _ hlongest.mem)
    | later _ hw => exact ih hw

/-! ### The first place -/

section First

variable {α : Type}

/-- Something stands at the start of some rests of a text. It is found where it stands first, and
nothing is found only if it stands nowhere. -/
structure FoundFirst (stands : List Char → α → Prop) (s : List Char) (found : Option α) : Prop where
  some : ∀ a, found = some a ↔ ∃ i, stands (s.drop i) a ∧ ∀ j < i, ∀ b, ¬ stands (s.drop j) b
  none : found = none ↔ ∀ i a, ¬ stands (s.drop i) a

variable {stands : List Char → α → Prop} {f : List Char → Option α}

/-- Trying all rests of a text from the longest on finds what stands first. -/
theorem foundFirst_findSome? (h : ∀ t a, f t = some a ↔ stands t a) (s : List Char) :
    FoundFirst stands s (s.tails.findSome? f) := by
  induction s with
  | nil =>
    have hsearch : ([] : List Char).tails.findSome? f = f [] := List.findSome?_singleton
    rw [hsearch]
    constructor
    · intro a
      rw [h]
      exact ⟨fun ha => ⟨0, ha, nofun⟩, fun ⟨i, ha, _⟩ => List.drop_nil (i := i) ▸ ha⟩
    · simp only [Option.eq_none_iff_forall_ne_some, ne_eq, h, List.drop_nil, forall_const]
  | cons c s ih =>
    rw [List.tails_cons, List.findSome?_cons]
    cases hf : f (c :: s) with
    | some b =>
      have hb : stands (c :: s) b := (h _ _).mp hf
      constructor
      · intro a
        constructor
        · rintro ⟨⟩
          exact ⟨0, hb, nofun⟩
        · rintro ⟨i, ha, hleast⟩
          cases i with
          | zero => exact hf.symm.trans ((h _ _).mpr ha)
          | succ i => exact absurd hb (hleast 0 (Nat.succ_pos i) b)
      · exact iff_of_false nofun fun hnone => hnone 0 b hb
    | none =>
      have hhere : ∀ a, ¬ stands (c :: s) a := by
        intro a ha
        rw [(h _ _).mpr ha] at hf
        cases hf
      -- Nothing stands at the start, so places count from the next character on.
      constructor
      · intro a
        rw [ih.some a]
        constructor
        · rintro ⟨i, ha, hleast⟩
          refine ⟨i + 1, ha, fun j hj b => ?_⟩
          cases j with
          | zero => exact hhere b
          | succ j => exact hleast j (Nat.lt_of_succ_lt_succ hj) b
        · rintro ⟨i, ha, hleast⟩
          cases i with
          | zero => exact absurd ha (hhere a)
          | succ i => exact ⟨i, ha, fun j hj b => hleast (j + 1) (Nat.succ_lt_succ hj) b⟩
      · rw [ih.none]
        constructor
        · intro hnone i a
          cases i with
          | zero => exact hhere a
          | succ i => exact hnone i a
        · exact fun hnone i a => hnone (i + 1) a

/-- Where no character of a text starts anything, the search goes on behind it. -/
theorem filterMap_tails_append {u : List Char} (h : ∀ c ∈ u, ∀ t, f (c :: t) = none)
    (s : List Char) : (u ++ s).tails.filterMap f = s.tails.filterMap f := by
  induction u with
  | nil => rfl
  | cons c u ih =>
    rw [List.cons_append, List.tails_cons, List.filterMap_cons_none (h c List.mem_cons_self _),
      ih fun d hd => h d (List.mem_cons_of_mem c hd)]

end First

/-! ### Digits -/

def Digits (s : List Char) : Prop :=
  ∀ c ∈ s, isDecimalDigit c = true

theorem digits_takeWhile (s : List Char) : Digits (s.takeWhile isDecimalDigit) :=
  fun _ hc => List.mem_takeWhile_imp hc

theorem prefix_takeWhile {ds s : List Char} (h : Digits ds) (hstart : ds <+: s) :
    ds <+: s.takeWhile isDecimalDigit := by
  obtain ⟨rest, rfl⟩ := hstart
  rw [List.takeWhile_append_of_pos h]
  exact List.prefix_append _ _

/-- The digits at the start of a text are the longest ones there. -/
theorem longest_digits (s : List Char) : Longest Digits s (s.takeWhile isDecimalDigit) where
  mem := digits_takeWhile s
  isPrefix := List.takeWhile_prefix _
  greatest _ hdigits hstart := (prefix_takeWhile hdigits hstart).length_le

/-- Digits before a point are all the digits there are. -/
theorem prefix_point {ds fs s : List Char} (h : Digits ds) (hstart : ds ++ '.' :: fs <+: s) :
    s.takeWhile isDecimalDigit = ds ∧
      ∃ rest, s.dropWhile isDecimalDigit = '.' :: rest ∧ fs <+: rest := by
  obtain ⟨rest, rfl⟩ := hstart
  have hpoint : isDecimalDigit '.' = false := by decide
  rw [List.append_assoc, List.takeWhile_append_of_pos h, List.dropWhile_append_of_pos h,
    List.cons_append, List.takeWhile_cons, List.dropWhile_cons, hpoint]
  exact ⟨List.append_nil ds, fs ++ rest, rfl, List.prefix_append fs rest⟩

end Milling.Text
