import Milling.Proofs.Toml.Number
import Milling.Proofs.Toml.Quoted
/-!
Every line of a document is read back: an entry as its key and its value (`line?_entry`), the header
of a table as the keys that lead to it (`line?_header`).
-/

namespace Milling.Toml

variable {rest : List Char}

/-! ### Starts of lines -/

/-- The characters that a line without an entry or a header may start with. -/
def blankMarks : List Char :=
  [' ', '\t', '#', '\n', '\r']

/-- These, and others that a key does not start with. -/
def lineMarks : List Char :=
  blankMarks ++ ['[', '\ufeff']

/-- A character that is of a kind is none of those that are not. -/
theorem not_mem_of_all {p : Char → Bool} {marks : List Char} {c : Char}
    (h : (marks.all fun d => !p d) = true) (hc : p c = true) : c ∉ marks := by
  intro hmem
  have hother := List.all_eq_true.mp h c hmem
  rw [hc] at hother
  cases hother

theorem isBlank_eq_false {c : Char} (h : c ∉ blankMarks) : isBlank c = false := by
  rw [isBlank, Bool.or_eq_false_iff, beq_eq_false_iff_ne, beq_eq_false_iff_ne]
  constructor <;> rintro rfl <;> exact h (by decide)

theorem skipBlanks_cons {c : Char} (hc : c ∉ blankMarks) (s : List Char) :
    skipBlanks (c :: s) = c :: s :=
  List.dropWhile_cons_of_neg (by simp [isBlank_eq_false hc])

/-! ### Keys -/

/-- A key starts with a bare character or a quote. -/
theorem head_key (name : String) : ∃ c s, key name = c :: s ∧ c ∉ lineMarks := by
  unfold key
  dsimp only
  split
  · rename_i h
    simp only [Bool.and_eq_true, Bool.not_eq_true', List.isEmpty_eq_false_iff, List.all_eq_true] at h
    obtain ⟨c, s, hs⟩ := List.exists_cons_of_ne_nil h.1
    have hbare : isBare c = true := h.2 c (hs ▸ List.mem_cons_self)
    exact ⟨c, s, hs, not_mem_of_all (by decide) hbare⟩
  · exact ⟨'"', _, rfl, by decide⟩

theorem not_mem_blankMarks {c : Char} (h : c ∉ lineMarks) : c ∉ blankMarks :=
  fun hmem => h (List.mem_append_left _ hmem)

theorem skipBlanks_key (name : String) : skipBlanks (key name ++ rest) = key name ++ rest := by
  obtain ⟨c, s, hkey, hmark⟩ := head_key name
  rw [hkey, List.cons_append, skipBlanks_cons (not_mem_blankMarks hmark)]

/-- A key is read back, with quotes or without. -/
theorem spanPart_key (name : String) (h : ∀ c ∈ rest.head?, isBare c = false) :
    spanPart (key name ++ rest) = some (name, rest) := by
  by_cases hbare : (!name.toList.isEmpty && name.toList.all isBare) = true
  · have hkey : key name = name.toList := by
      rw [key]
      exact if_pos hbare
    simp only [Bool.and_eq_true, Bool.not_eq_true', List.isEmpty_eq_false_iff, List.all_eq_true]
      at hbare
    obtain ⟨hne, hall⟩ := hbare
    have htake : (name.toList ++ rest).takeWhile isBare = name.toList := by
      rw [List.takeWhile_append_of_pos hall]
      cases rest with
      | nil => exact List.append_nil _
      | cons c rest => rw [List.takeWhile_cons_of_neg (by simp [h c rfl]), List.append_nil]
    have hdrop : (name.toList ++ rest).dropWhile isBare = rest := by
      rw [List.dropWhile_append_of_pos hall]
      cases rest with
      | nil => rfl
      | cons c rest => exact List.dropWhile_cons_of_neg (by simp [h c rfl])
    obtain ⟨c, s, hs⟩ := List.exists_cons_of_ne_nil hne
    have hc : isBare c = true := hall c (hs ▸ List.mem_cons_self)
    have hnot : ∀ quote, isBare quote = false → ∀ t, name.toList ++ rest ≠ quote :: t := by
      rintro quote hquote t heq
      rw [hs] at heq
      obtain ⟨rfl, -⟩ := List.cons_eq_cons.mp heq
      exact Bool.false_ne_true (hquote.symm.trans hc)
    rw [hkey, spanPart, htake, hdrop]
    · rw [hs]
      dsimp only
      rw [← hs, String.ofList_toList]
    · exact fun t => hnot '"' (by decide) t
    · exact fun t => hnot '\'' (by decide) t
  · have hkey : key name = between "\"" (escapeLine name.toList) := by
      rw [key]
      exact if_neg hbare
    have hform : key name ++ rest = '"' :: (escapeLine name.toList ++ '"' :: rest) := by
      simp [hkey, between]
    rw [hform, spanPart, spanBasic_line, String.ofList_toList]

def dotted (path : List String) : List Char :=
  path.flatMap fun name => key name ++ ['.']

/-- A key with dots is read part by part, if no more of it follows. -/
theorem spanKey_dotted {path : List String} {limit : Nat} (hlimit : path.length < limit)
    (name : String) (hbare : ∀ c ∈ rest.head?, isBare c = false)
    (hdot : ∀ t, skipBlanks rest ≠ '.' :: t) :
    spanKey limit (dotted path ++ (key name ++ rest)) = some ((path, name), skipBlanks rest) := by
  induction path generalizing limit with
  | nil =>
    obtain ⟨limit, rfl⟩ := Nat.exists_eq_add_one_of_ne_zero (Nat.ne_of_gt hlimit)
    rw [dotted, List.flatMap_nil, List.nil_append, spanKey, skipBlanks_key, spanPart_key name hbare]
    simp only [Option.bind_eq_bind, Option.bind_some]
  | cons first path ih =>
    obtain ⟨limit, rfl⟩ := Nat.exists_eq_add_one_of_ne_zero (Nat.ne_of_gt (Nat.zero_lt_of_lt hlimit))
    have hform : dotted (first :: path) ++ (key name ++ rest) =
        key first ++ '.' :: (dotted path ++ (key name ++ rest)) := by
      simp [dotted]
    have hpart : spanPart (key first ++ '.' :: (dotted path ++ (key name ++ rest))) =
        some (first, '.' :: (dotted path ++ (key name ++ rest))) :=
      spanPart_key first (by simp [isBare])
    have hdot : skipBlanks ('.' :: (dotted path ++ (key name ++ rest))) =
        '.' :: (dotted path ++ (key name ++ rest)) := skipBlanks_cons (by decide) _
    rw [hform, spanKey, skipBlanks_key, hpart]
    simp only [Option.bind_eq_bind, Option.bind_some, hdot, ih (Nat.lt_of_succ_lt_succ hlimit)]

/-! ### Values -/

/-- A value that stands on the line of its key: a truth value, a number with a point, a text. -/
def IsScalar : Datum → Prop
  | .flag _ | .real _ | .text _ => True
  | _ => False

/-- The characters that a value starts with which is no number and no date. -/
def valueMarks : List Char :=
  ['[', '\x7b', 't', 'f', '"', '\'']

/-- A number starts with a digit, a sign, or a letter of its word. -/
theorem head_number (x : Float) :
    ∃ c s, value (.real x) = c :: s ∧ c ∉ blankMarks ∧ c ∉ valueMarks := by
  obtain ⟨c, s, hwrite, hc⟩ := head_write x
  refine ⟨c, s, hwrite, ?_⟩
  rcases hc with hdigit | rfl | rfl | rfl
  · exact ⟨not_mem_of_all (by decide) hdigit, not_mem_of_all (by decide) hdigit⟩
  all_goals decide

theorem skipBlanks_value {d : Datum} (h : IsScalar d) :
    skipBlanks (' ' :: (value d ++ rest)) = value d ++ rest := by
  obtain ⟨c, s, hvalue, hblank⟩ : ∃ c s, value d = c :: s ∧ c ∉ blankMarks := by
    cases d with
    | flag b => cases b <;> exact ⟨_, _, rfl, by decide⟩
    | real x =>
      obtain ⟨c, s, hvalue, hblank, -⟩ := head_number x
      exact ⟨c, s, hvalue, hblank⟩
    | text s =>
      obtain ⟨c, t, hquoted, hc⟩ := head_quoted s
      exact ⟨c, t, hquoted, by rcases hc with rfl | rfl <;> decide⟩
    | _ => cases h
  rw [hvalue]
  exact skipBlanks_cons hblank _

/-- What starts with neither of these characters is no list, no table and no truth value. -/
theorem spanValue_other {c : Char} (hc : c ∉ ['[', '\x7b', 't', 'f']) (s : List Char)
    (depth budget : Nat) : spanValue depth (budget + 1) (c :: s) =
      if c == '"' || c == '\'' then (spanString (c :: s)).map fun (text, rest) => (.text text, rest)
      else (spanDateTime (c :: s)).or (spanNumber (c :: s)) := by
  have hne : ∀ d ∈ ['[', '\x7b', 't', 'f'], ∀ t u : List Char, c :: t ≠ d :: u :=
    fun d hd t u heq => hc ((List.cons_eq_cons.mp heq).1 ▸ hd)
  rw [spanValue]
  · rfl
  · exact fun t => hne '[' (by decide) _ t
  · exact fun t => hne '\x7b' (by decide) _ t
  · exact fun t => hne 't' (by decide) _ _
  · exact fun t => hne 'f' (by decide) _ _

/-- The value of a line is read back as it was written, up to the end of the line. -/
theorem spanValue_value {d : Datum} (h : IsScalar d) (depth budget : Nat) :
    spanValue depth (budget + 1) (value d ++ '\n' :: rest) = some (d, '\n' :: rest) := by
  cases d with
  | flag b => cases b <;> rfl
  | real x =>
    obtain ⟨c, s, hvalue, -, hmark⟩ := head_number x
    have hdate : spanDateTime (value (.real x) ++ '\n' :: rest) = none :=
      spanDateTime_write x _
    have hnumber : spanNumber (value (.real x) ++ '\n' :: rest) = some (.real x, '\n' :: rest) :=
      spanNumber_write x rest
    have hquote : ¬ (c == '"' || c == '\'') = true := by
      simp only [Bool.or_eq_true, beq_iff_eq]
      rintro (rfl | rfl) <;> exact hmark (by decide)
    rw [hvalue, List.cons_append] at hdate hnumber ⊢
    rw [spanValue_other (fun hmem => hmark (List.mem_append_left ['"', '\''] hmem)), if_neg hquote,
      hdate, Option.none_or, hnumber]
  | text s =>
    obtain ⟨c, t, hvalue, hc⟩ := head_quoted s
    have hquoted := spanString_quoted rest s
    change spanValue depth (budget + 1) (quoted s ++ _) = _
    rw [hvalue, List.cons_append] at hquoted ⊢
    rw [spanValue_other (by rcases hc with rfl | rfl <;> decide), if_pos (by simpa using hc),
      hquoted, Option.map_some]
  | _ => cases h

/-! ### Lines -/

/-- An entry is read as its key and its value. -/
theorem line?_entry (doc : Document) (name : String) {d : Datum} (h : IsScalar d)
    (rest : List Char) :
    doc.line? (key name ++ ' ' :: '=' :: ' ' :: (value d ++ '\n' :: rest)) =
      (Entries.within (Entries.define d name []) doc.path doc.root).map fun root =>
        ({ doc with root }, '\n' :: rest) := by
  have hkey : spanKey depthLimit
      (dotted [] ++ (key name ++ ' ' :: '=' :: ' ' :: (value d ++ '\n' :: rest))) =
        some (([], name), '=' :: ' ' :: (value d ++ '\n' :: rest)) :=
    spanKey_dotted (by decide) name (by simp [isBare]) (fun t => by simp [skipBlanks, isBlank])
  rw [dotted, List.flatMap_nil, List.nil_append] at hkey
  obtain ⟨c, s, hname, hhead⟩ := head_key name
  have hmark : c ≠ '[' := by
    rintro rfl
    exact hhead (by decide)
  rw [Document.line?]
  · rw [hkey]
    simp only [skipBlanks_value h, spanValue_value h, Option.bind_eq_bind, Option.bind_some]
    cases Entries.within (Entries.define d name []) doc.path doc.root <;> rfl
  all_goals
    intro t heq
    rw [hname] at heq
    exact hmark (List.cons_eq_cons.mp heq).1

/-- What a key with dots starts with. -/
theorem head_dotted (path : List String) (name : String) (rest : List Char) :
    ∃ first t, dotted path ++ (key name ++ rest) = key first ++ t := by
  cases path with
  | nil => exact ⟨name, rest, rfl⟩
  | cons first path =>
    exact ⟨first, '.' :: (dotted path ++ (key name ++ rest)), by simp [dotted]⟩

/-- The header of a table is read as the keys that lead to it. -/
theorem line?_header (doc : Document) {path : List String} (hpath : path.length < depthLimit)
    (name : String) (rest : List Char) :
    doc.line? ('[' :: (dotted path ++ (key name ++ ']' :: rest))) =
      (Entries.openTable name path doc.root).map fun root => (⟨root, path ++ [name]⟩, rest) := by
  have hkey : spanKey depthLimit (dotted path ++ (key name ++ ']' :: rest)) =
      some ((path, name), ']' :: rest) :=
    spanKey_dotted hpath name (by simp [isBare]) (fun t => by simp [skipBlanks, isBlank])
  have hmark : ∀ t, dotted path ++ (key name ++ ']' :: rest) ≠ '[' :: t := by
    intro t heq
    obtain ⟨first, u, hform⟩ := head_dotted path name (']' :: rest)
    obtain ⟨c, s, hname, hhead⟩ := head_key first
    rw [hform, hname] at heq
    obtain ⟨rfl, -⟩ := List.cons_eq_cons.mp heq
    exact hhead (by decide)
  rw [Document.line?]
  · rw [Document.open?, hkey]
    simp only [Option.bind_eq_bind, Option.bind_some]
    cases Entries.openTable name path doc.root <;> rfl
  · exact hmark

end Milling.Toml
