import Milling.Block.Comment
import Milling.Proofs.Text.Blank
/-!
Comments leave no trace in the code of a block.

Comments in parentheses are taken out first and the comment to the end of the text after them, so a
parenthesis can only be opened or closed by text that is added where the other one already stands.
Where every parenthesis before a place is closed before it (`Closed`), a comment can be put in
there (`code_insert`), and a semicolon with text that closes nothing can follow any block
(`code_append`). Trimming the block first makes no difference (`code_trim`).
-/

namespace Milling.Block

/-- Every opening parenthesis is followed by a closing one. -/
def Closed (s : List Char) : Prop :=
  ∀ before after, s = before ++ '(' :: after → ')' ∈ after

theorem closed_nil : Closed [] := by
  intro before after h
  simp at h

theorem closed_cons {c : Char} {s : List Char} :
    Closed (c :: s) ↔ (c = '(' → ')' ∈ s) ∧ Closed s := by
  constructor
  · intro h
    constructor
    · rintro rfl
      exact h [] s rfl
    · rintro before after rfl
      exact h (c :: before) after rfl
  · rintro ⟨hc, hs⟩ before after heq
    cases before with
    | nil =>
      obtain ⟨rfl, rfl⟩ := List.cons.inj heq
      exact hc rfl
    | cons d before =>
      obtain ⟨rfl, rfl⟩ := List.cons.inj heq
      exact hs before after rfl

instance decidableClosed : (s : List Char) → Decidable (Closed s)
  | [] => .isTrue closed_nil
  | _ :: s =>
    have := decidableClosed s
    decidable_of_iff _ closed_cons.symm

theorem Closed.of_append {s t : List Char} (h : Closed (s ++ t)) : Closed t := by
  intro before after ht
  exact h (s ++ before) after (by rw [ht, List.append_assoc])

theorem closed_of_not_mem {s : List Char} (h : '(' ∉ s) : Closed s := by
  rintro before after rfl
  simp at h

theorem opensComment_iff {c : Char} {rest : List Char} :
    opensComment c rest = true ↔ c = '(' ∧ ')' ∈ rest := by
  simp [opensComment]

theorem tail_dropWhile {u v : List Char} (h : ')' ∉ u) :
    ((u ++ ')' :: v).dropWhile (· != ')')).tail = v := by
  have hu : u.dropWhile (· != ')') = [] :=
    List.dropWhile_eq_nil_iff.mpr fun c hc => by
      have : c ≠ ')' := fun heq => h (heq ▸ hc)
      simpa using this
  rw [List.dropWhile_append, hu]
  simp

/-- A comment in parentheses is taken out. -/
theorem withoutParens_comment {u : List Char} (h : ')' ∉ u) (v : List Char) :
    withoutParens ('(' :: (u ++ ')' :: v)) = withoutParens v := by
  have hopens : opensComment '(' (u ++ ')' :: v) = true := by simp [opensComment]
  rw [withoutParens, if_pos hopens, tail_dropWhile h]

theorem withoutParens_cons {c : Char} {rest : List Char} (h : ¬ opensComment c rest) :
    withoutParens (c :: rest) = c :: withoutParens rest := by
  rw [withoutParens, if_neg h]

/-- What follows a text without an open parenthesis does not change how that text is read. -/
theorem withoutParens_append {s : List Char} (h : Closed s) (t : List Char) :
    withoutParens (s ++ t) = withoutParens s ++ withoutParens t := by
  induction s using withoutParens.induct with
  | case1 => simp [withoutParens]
  | case2 c rest hopens ih =>
    obtain ⟨rfl, hclose⟩ := opensComment_iff.mp hopens
    obtain ⟨u, v, rfl, hu⟩ := List.eq_append_cons_of_mem hclose
    rw [tail_dropWhile hu] at ih
    have hrest : '(' :: (u ++ ')' :: v) ++ t = '(' :: (u ++ ')' :: (v ++ t)) := by simp
    have hv : Closed v := Closed.of_append (s := '(' :: (u ++ [')'])) (by simpa using h)
    rw [hrest, withoutParens_comment hu, withoutParens_comment hu, ih hv]
  | case3 c rest hopens ih =>
    have hrest : ¬ opensComment c (rest ++ t) := by
      intro hopens'
      obtain ⟨rfl, -⟩ := opensComment_iff.mp hopens'
      exact hopens (opensComment_iff.mpr ⟨rfl, (closed_cons.mp h).1 rfl⟩)
    rw [List.cons_append, withoutParens_cons hrest, withoutParens_cons hopens,
      ih (closed_cons.mp h).2, List.cons_append]

/-- Without a closing parenthesis no comment is taken out. -/
theorem withoutParens_of_not_mem {t : List Char} (h : ')' ∉ t) : withoutParens t = t := by
  induction t with
  | nil => simp [withoutParens]
  | cons c rest ih =>
    have hrest : ')' ∉ rest := fun hmem => h (List.mem_cons_of_mem c hmem)
    have hopens : ¬ opensComment c rest := fun hopens => hrest (opensComment_iff.mp hopens).2
    rw [withoutParens_cons hopens, ih hrest]

/-- A text that closes nothing stays as it is, also after an open parenthesis. -/
theorem withoutParens_append_of_not_mem {t : List Char} (h : ')' ∉ t) (s : List Char) :
    withoutParens (s ++ t) = withoutParens s ++ t := by
  induction s using withoutParens.induct with
  | case1 => simp [withoutParens, withoutParens_of_not_mem h]
  | case2 c rest hopens ih =>
    obtain ⟨rfl, hclose⟩ := opensComment_iff.mp hopens
    obtain ⟨u, v, rfl, hu⟩ := List.eq_append_cons_of_mem hclose
    rw [tail_dropWhile hu] at ih
    have hrest : '(' :: (u ++ ')' :: v) ++ t = '(' :: (u ++ ')' :: (v ++ t)) := by simp
    rw [hrest, withoutParens_comment hu, withoutParens_comment hu, ih]
  | case3 c rest hopens ih =>
    have hrest : ¬ opensComment c (rest ++ t) := by
      intro hopens'
      obtain ⟨rfl, hclose⟩ := opensComment_iff.mp hopens'
      exact hopens (opensComment_iff.mpr ⟨rfl, (List.mem_append.mp hclose).resolve_right h⟩)
    rw [List.cons_append, withoutParens_cons hrest, withoutParens_cons hopens, ih,
      List.cons_append]

theorem mem_of_mem_withoutParens {s : List Char} {c : Char} (h : c ∈ withoutParens s) : c ∈ s := by
  induction s using withoutParens.induct with
  | case1 => simp [withoutParens] at h
  | case2 d rest hopens ih =>
    obtain ⟨rfl, hclose⟩ := opensComment_iff.mp hopens
    obtain ⟨u, v, rfl, hu⟩ := List.eq_append_cons_of_mem hclose
    rw [tail_dropWhile hu] at ih
    rw [withoutParens_comment hu] at h
    simp [ih h]
  | case3 d rest hopens ih =>
    rw [withoutParens_cons hopens] at h
    rcases List.mem_cons.mp h with rfl | h
    · exact List.mem_cons_self
    · exact List.mem_cons_of_mem d (ih h)

/-- Within a line, the comment to the end of the text starts at the first semicolon. -/
theorem withoutTail_eq_takeWhile {s : List Char} (h : '\n' ∉ s) :
    withoutTail s = s.takeWhile (· != ';') := by
  induction s with
  | nil => rfl
  | cons c rest ih =>
    have hrest : '\n' ∉ rest := fun hmem => h (List.mem_cons_of_mem c hmem)
    have hstarts : startsTail c rest = (c == ';') := by simp [startsTail, hrest]
    rw [withoutTail, hstarts, List.takeWhile_cons, ih hrest]
    by_cases hc : c = ';' <;> simp [hc]

/-! ### The code of a line -/

/-- The code of a line is what stands before the first semicolon outside comments in parentheses. -/
theorem code_eq {s : List Char} (h : '\n' ∉ s) :
    code s = Text.trim ((withoutParens s).takeWhile (· != ';')) := by
  rw [code, withoutTail_eq_takeWhile fun hmem => h (mem_of_mem_withoutParens hmem)]

theorem code_nil : code [] = [] := by
  simp [code, withoutParens, withoutTail, Text.trim, Text.trimLeft, Text.trimRight]

theorem not_mem_of_isBlankText {w : List Char} (h : Text.IsBlankText w) :
    '(' ∉ w ∧ ')' ∉ w ∧ ';' ∉ w :=
  ⟨fun hmem => absurd (h _ hmem) (by decide), fun hmem => absurd (h _ hmem) (by decide),
    fun hmem => absurd (h _ hmem) (by decide)⟩

theorem takeWhile_of_not_mem {w : List Char} (h : ';' ∉ w) : w.takeWhile (· != ';') = w :=
  List.takeWhile_eq_self_iff.mpr fun c hc => by
    have : c ≠ ';' := fun heq => h (heq ▸ hc)
    simpa using this

theorem takeWhile_append_of_not_mem {w : List Char} (h : ';' ∉ w) (u : List Char) :
    (w ++ u).takeWhile (· != ';') = w ++ u.takeWhile (· != ';') := by
  rw [List.takeWhile_append, takeWhile_of_not_mem h, if_pos rfl]

/-- Blanks at the end of a line are trimmed, with or without a comment before them. -/
theorem trim_takeWhile_append {w : List Char} (h : Text.IsBlankText w) (u : List Char) :
    Text.trim ((u ++ w).takeWhile (· != ';')) = Text.trim (u.takeWhile (· != ';')) := by
  rw [List.takeWhile_append, takeWhile_of_not_mem (not_mem_of_isBlankText h).2.2]
  split
  · rename_i hwhole
    rw [Text.trim_append_right h, List.takeWhile_prefix _ |>.eq_of_length hwhole]
  · rfl

/-- The blanks around a line never become part of its code, so it does not matter that they are
taken away before the comments are. -/
theorem code_trim {s : List Char} (h : '\n' ∉ s) : code (Text.trim s) = code s := by
  obtain ⟨left, right, hs, hleft, hright⟩ := Text.exists_eq_trim s
  obtain ⟨hopen, hclose, htail⟩ := not_mem_of_isBlankText hleft
  have htrim : '\n' ∉ Text.trim s := fun hmem => h (by
    rw [hs]
    exact List.mem_append_left _ (List.mem_append_right _ hmem))
  have hparens : withoutParens s = left ++ (withoutParens (Text.trim s) ++ right) := by
    calc withoutParens s = withoutParens (left ++ (Text.trim s ++ right)) := by
          rw [← List.append_assoc, ← hs]
      _ = left ++ (withoutParens (Text.trim s) ++ right) := by
          rw [withoutParens_append (closed_of_not_mem hopen), withoutParens_of_not_mem hclose,
            withoutParens_append_of_not_mem (not_mem_of_isBlankText hright).2.1]
  rw [code_eq htrim, code_eq h, hparens, takeWhile_append_of_not_mem htail,
    Text.trim_append_left hleft, trim_takeWhile_append hright]

/-- A comment in parentheses can be put in where no parenthesis is open. -/
theorem code_insert {p q c : List Char} (hclosed : Closed p) (hc : ')' ∉ c)
    (h : '\n' ∉ p ++ '(' :: (c ++ ')' :: q)) :
    code (p ++ '(' :: (c ++ ')' :: q)) = code (p ++ q) := by
  have h' : '\n' ∉ p ++ q := by
    simp only [List.mem_append, List.mem_cons, not_or] at h ⊢
    exact ⟨h.1, h.2.2.2.2⟩
  rw [code_eq h, code_eq h', withoutParens_append hclosed, withoutParens_comment hc,
    withoutParens_append hclosed]

/-- A comment to the end of the text can follow if it closes no parenthesis. -/
theorem code_append {s t : List Char} (ht : ')' ∉ t) (h : '\n' ∉ s ++ ';' :: t) :
    code (s ++ ';' :: t) = code s := by
  have hs : '\n' ∉ s := fun hmem => h (List.mem_append_left _ hmem)
  have hclose : ')' ∉ ';' :: t := by simpa using ht
  rw [code_eq h, code_eq hs, withoutParens_append_of_not_mem hclose]
  congr 1
  rw [List.takeWhile_append]
  split
  · rename_i hwhole
    rw [List.takeWhile_prefix _ |>.eq_of_length hwhole]
    simp
  · rfl

end Milling.Block
