import Milling.Lint.Check
import Milling.Proofs.Lint.Pattern
/-!
What the checker remembers, told by the lines before.

The checker carries three things from line to line. Here each is read off the codes of the lines so
far: cutting is on if the last G word that starts or ends it starts it (`lastModeWord?`), and feed
rate and height are the latest that a line gives (`Latest`). `Memory.Agrees.next` keeps both
readings together over one line.
-/

namespace Milling.Lint

/-! ### Lines that are checked -/

/-- A line is checked if it is not blank, does not start with a comment or a percent sign, and has
something on it besides comments. -/
def IsActive (line : List Char) : Prop :=
  Text.trim line ≠ [] ∧ (Text.trim line).head? ∉ [some '(', some ';', some '%'] ∧
    Block.code (Text.trim line) ≠ []

instance (line : List Char) : Decidable (IsActive line) := by
  unfold IsActive; infer_instance

/-- The number of a line, counted from 1, and its code, if the line is checked. -/
def activeLine? (numbered : List Char × Nat) : Option (Nat × List Char) :=
  if IsActive numbered.1 then some (numbered.2 + 1, Block.code (Text.trim numbered.1)) else none

def activeLines (source : String) : List (Nat × List Char) :=
  (source.toList.splitOn '\n').zipIdx.filterMap activeLine?

/-- The checker takes the code of the active lines and passes over the others. -/
theorem activeCode_eq (line : List Char) :
    activeCode line = if IsActive line then some (Block.code (Text.trim line)) else none := by
  by_cases hactive : IsActive line
  · obtain ⟨hne, hhead, hcode⟩ := hactive
    obtain ⟨c, rest, htrim⟩ := List.exists_cons_of_ne_nil hne
    rw [if_pos ⟨hne, hhead, hcode⟩, activeCode]
    rw [htrim] at hhead hcode ⊢
    simp only [List.head?_cons, List.mem_cons, Option.some.injEq, List.not_mem_nil, or_false,
      not_or] at hhead
    simp [hhead, hcode]
  · rw [if_neg hactive, activeCode]
    split
    · rfl
    · rename_i c rest htrim
      split
      · rfl
      · rename_i hskip
        simp only [Bool.or_eq_true, beq_iff_eq, or_assoc] at hskip
        dsimp only
        split
        · rfl
        · rename_i hcode
          refine absurd ⟨?_, ?_, ?_⟩ hactive
          · rw [htrim]
            exact List.cons_ne_nil c rest
          · rw [htrim]
            simpa using hskip
          · rw [htrim]
            exact fun hnil => hcode (List.isEmpty_iff.mpr hnil)

example : activeLines "G0 Z5\n\n(note) M3\n% end\n M5 ; off" =
    [(1, "G0 Z5".toList), (5, "M5".toList)] := by decide +kernel

/-! ### The latest value and the last mode word -/

/-- The last code of a list that has a value has this one. -/
def Latest (value : List Char → Float → Prop) (codes : List (List Char)) (v : Float) : Prop :=
  ∃ before code after, codes = before ++ code :: after ∧ value code v ∧
    ∀ later ∈ after, ∀ u, ¬ value later u

theorem not_latest_nil {value : List Char → Float → Prop} {v : Float} : ¬ Latest value [] v := by
  rintro ⟨before, code, after, h, -⟩
  exact List.cons_ne_nil code after (List.append_eq_nil_iff.mp h.symm).2

/-- The latest value is that of the last code, if it has one. -/
theorem latest_concat {value : List Char → Float → Prop} {codes : List (List Char)}
    {code : List Char} {v : Float} :
    Latest value (codes ++ [code]) v ↔
      value code v ∨ ((∀ u, ¬ value code u) ∧ Latest value codes v) := by
  constructor
  · -- The code that gives the value is the last one, or the last one is after it and gives none.
    rintro ⟨before, last, after, h, hvalue, hlater⟩
    rcases List.eq_nil_or_concat' after with rfl | ⟨after, final, rfl⟩
    · obtain rfl := (List.append_singleton_inj.mp h).2
      exact .inl hvalue
    · rw [← List.cons_append, ← List.append_assoc] at h
      obtain ⟨rfl, rfl⟩ := List.append_singleton_inj.mp h
      refine .inr ⟨hlater code (by simp), before, last, after, rfl, hvalue, ?_⟩
      exact fun later hmem => hlater later (List.mem_append_left _ hmem)
  · rintro (hvalue | ⟨hnone, before, last, after, rfl, hvalue, hlater⟩)
    · exact ⟨codes, code, [], rfl, hvalue, by simp⟩
    · refine ⟨before, last, after ++ [code], by simp, hvalue, ?_⟩
      intro later hmem
      rcases List.mem_append.mp hmem with hmem | hmem
      · exact hlater later hmem
      · rw [List.mem_singleton.mp hmem]
        exact hnone

/-- A list of codes has no latest value only if none of its codes has a value. -/
theorem forall_not_latest_iff {value : List Char → Float → Prop} {codes : List (List Char)} :
    (∀ v, ¬ Latest value codes v) ↔ ∀ code ∈ codes, ∀ v, ¬ value code v := by
  induction codes using List.reverseRecOn with
  | nil => simp [not_latest_nil]
  | append_singleton codes code ih =>
    constructor
    · intro hnone
      have hcode : ∀ v, ¬ value code v := fun v hv => hnone v (latest_concat.mpr (.inl hv))
      have hcodes : ∀ v, ¬ Latest value codes v := fun v hv =>
        hnone v (latest_concat.mpr (.inr ⟨hcode, hv⟩))
      intro c hc
      rcases List.mem_append.mp hc with hc | hc
      · exact ih.mp hcodes c hc
      · rw [List.mem_singleton.mp hc]
        exact hcode
    · rintro h v ⟨before, last, after, hsplit, hvalue, -⟩
      exact h last (by simp [hsplit]) v hvalue

/-- A G word starts or ends cutting. -/
def IsModeWord (word : String) : Prop :=
  word ∈ cuttingG ∨ word ∈ rapidG

instance (word : String) : Decidable (IsModeWord word) := by
  unfold IsModeWord; infer_instance

/-- The last G word of some codes that starts or ends cutting. -/
def lastModeWord? (codes : List (List Char)) : Option String :=
  ((codes.flatMap (wordsOf 'G')).filter IsModeWord).getLast?

theorem lastModeWord?_concat (codes : List (List Char)) (code : List Char) :
    lastModeWord? (codes ++ [code]) =
      (((wordsOf 'G' code).filter IsModeWord).getLast?).or (lastModeWord? codes) := by
  simp only [lastModeWord?, List.flatMap_append, List.flatMap_singleton, List.filter_append,
    List.getLast?_append]

theorem cuttingAfter_concat (before : Bool) (words : List String) (word : String) :
    cuttingAfter before (words ++ [word]) =
      if word ∈ cuttingG then true else if word ∈ rapidG then false
      else cuttingAfter before words := by
  simp only [cuttingAfter, List.foldl_append, List.foldl_cons, List.foldl_nil,
    List.contains_iff_mem]

/-- Cutting is on after some words if the last of them that starts or ends it starts it, or if there
is no such word and it was on before. -/
theorem cuttingAfter_iff (before : Bool) (words : List String) :
    cuttingAfter before words = true ↔
      (∃ word ∈ cuttingG, (words.filter IsModeWord).getLast? = some word) ∨
        ((words.filter IsModeWord).getLast? = none ∧ before = true) := by
  induction words using List.reverseRecOn with
  | nil => simp [cuttingAfter]
  | append_singleton words word ih =>
    rw [cuttingAfter_concat, List.filter_append]
    by_cases hcutting : word ∈ cuttingG
    · simp [hcutting, IsModeWord]
    · by_cases hrapid : word ∈ rapidG
      · simp [hcutting, hrapid, IsModeWord]
      · simp [hcutting, hrapid, IsModeWord, ih]

/-! ### The memory agrees with the history -/

/-- The memory holds what the codes so far tell. -/
structure Memory.Agrees (m : Memory) (past : List (List Char)) : Prop where
  cutting : m.cutting = true ↔ ∃ word ∈ cuttingG, lastModeWord? past = some word
  feed : ∀ v, m.feed = some v ↔ Latest FeedWord past v
  height : ∀ v, m.height = some v ↔ Latest HeightWord past v

theorem Memory.agrees_initial : Memory.initial.Agrees [] where
  cutting := by simp [initial, lastModeWord?]
  feed v := iff_of_false (by simp [initial]) not_latest_nil
  height v := iff_of_false (by simp [initial]) not_latest_nil

/-- A value that a line may give takes the place of the one before. -/
theorem or_eq_some_iff_latest {value : List Char → Float → Prop} {now before : Option Float}
    {past : List (List Char)} {code : List Char} (hnow : ∀ v, now = some v ↔ value code v)
    (hbefore : ∀ v, before = some v ↔ Latest value past v) (v : Float) :
    now.or before = some v ↔ Latest value (past ++ [code]) v := by
  rw [latest_concat, ← hnow, ← hbefore, Option.or_eq_some_iff, Option.eq_none_iff_forall_ne_some]
  simp only [ne_eq, hnow]

/-- After the next line the memory agrees with one line more. -/
theorem Memory.Agrees.next {m : Memory} {past : List (List Char)} (h : m.Agrees past)
    (code : List Char) : (m.next code).Agrees (past ++ [code]) where
  cutting := by
    rw [Memory.next, cuttingAfter_iff, codeWords_eq (by decide), lastModeWord?_concat,
      h.cutting]
    cases hlast : ((wordsOf 'G' code).filter IsModeWord).getLast? <;> simp
  feed := or_eq_some_iff_latest (fun _ => feed?_eq_some_iff) h.feed
  height := or_eq_some_iff_latest (fun _ => height?_eq_some_iff) h.height

end Milling.Lint
