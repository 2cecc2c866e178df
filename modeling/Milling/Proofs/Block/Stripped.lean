import Milling.Block.Reading
import Milling.Proofs.Block.Comment
import Milling.Proofs.Text.Match
/-!
Comments that are found and comments that are taken out.

Finding the first comment and taking out all comments are two passes over a text that do not use
each other. They agree on whether there is a comment (`comment?_eq_none_iff_code`): each comment
that is taken out takes a parenthesis or a semicolon with it, which trimming never does. Within a
line nothing that is left starts a comment, so that taking comments out once is enough (`bare_code`,
`code_code`). `commentsAgree` has these facts together.
-/

namespace Milling.Block

open Text

/-! ### The first comment -/

/-- A comment with the given content stands at the start of a text: between a parenthesis and the
first closing one, or after a semicolon that no line feed follows. -/
inductive StandsComment : List Char → List Char → Prop
  | parens {content rest : List Char} : ')' ∉ content →
      StandsComment ('(' :: (content ++ ')' :: rest)) content
  | tail {content : List Char} : '\n' ∉ content → StandsComment (';' :: content) content

theorem startsTail_iff {c : Char} {rest : List Char} :
    startsTail c rest = true ↔ c = ';' ∧ '\n' ∉ rest := by
  simp [startsTail]

def commentAt? : List Char → Option (List Char)
  | [] => none
  | c :: rest =>
    if opensComment c rest then some (rest.takeWhile (· != ')'))
    else if startsTail c rest then some rest
    else none

theorem takeWhile_ne_close {u : List Char} (h : ')' ∉ u) (v : List Char) :
    (u ++ ')' :: v).takeWhile (· != ')') = u := by
  have hu : ∀ c ∈ u, (c != ')') = true := fun c hc => bne_iff_ne.mpr fun heq => h (heq ▸ hc)
  rw [List.takeWhile_append_of_pos hu, List.takeWhile_cons_of_neg (by simp), List.append_nil]

/-- A comment is found at the start of a text exactly where one stands. -/
theorem commentAt?_eq_some_iff {s content : List Char} :
    commentAt? s = some content ↔ StandsComment s content := by
  constructor
  · intro h
    unfold commentAt? at h
    split at h
    · cases h
    · rename_i c rest
      split_ifs at h with hopens hstarts
      · obtain ⟨rfl, hclose⟩ := opensComment_iff.mp hopens
        obtain ⟨u, v, rfl, hu⟩ := List.eq_append_cons_of_mem hclose
        rw [takeWhile_ne_close hu, Option.some_inj] at h
        exact h ▸ .parens hu
      · obtain ⟨rfl, hfeed⟩ := startsTail_iff.mp hstarts
        exact Option.some.inj h ▸ .tail hfeed
  · rintro (@⟨content, rest, hclose⟩ | @⟨content, hfeed⟩)
    · have hopens : opensComment '(' (content ++ ')' :: rest) = true :=
        opensComment_iff.mpr ⟨rfl, by simp⟩
      rw [commentAt?, if_pos hopens, takeWhile_ne_close hclose]
    · have hopens : ¬ opensComment ';' content = true := by simp [opensComment]
      rw [commentAt?, if_neg hopens, if_pos (startsTail_iff.mpr ⟨rfl, hfeed⟩)]

theorem comment?_eq_findSome? (s : List Char) : comment? s = s.tails.findSome? commentAt? := by
  induction s with
  | nil => rfl
  | cons c rest ih =>
    rw [comment?, List.tails_cons, List.findSome?_cons, commentAt?, ← ih]
    split_ifs <;> rfl

/-- The first comment of a text is found. -/
theorem foundFirst_comment? (s : List Char) : FoundFirst StandsComment s (comment? s) := by
  rw [comment?_eq_findSome?]
  exact foundFirst_findSome? (fun _ _ => commentAt?_eq_some_iff) s

/-! ### What taking comments out removes -/

theorem tail_dropWhile_sublist (s : List Char) : (s.dropWhile (· != ')')).tail.Sublist s :=
  (List.tail_sublist _).trans (List.dropWhile_sublist _)

theorem withoutParens_sublist (s : List Char) : (withoutParens s).Sublist s := by
  induction s using withoutParens.induct with
  | case1 => simp [withoutParens]
  | case2 c rest hopens ih =>
    rw [withoutParens, if_pos hopens]
    exact (ih.trans (tail_dropWhile_sublist rest)).cons c
  | case3 c rest hopens ih =>
    rw [withoutParens_cons hopens]
    exact ih.cons_cons c

/-- A comment takes at least the parenthesis with it that opens it. -/
theorem withoutParens_sublist_of_opens {c : Char} {rest : List Char} (h : opensComment c rest) :
    (withoutParens (c :: rest)).Sublist rest := by
  rw [withoutParens, if_pos h]
  exact (withoutParens_sublist _).trans (tail_dropWhile_sublist rest)

theorem withoutTail_isPrefix (s : List Char) : withoutTail s <+: s := by
  induction s with
  | nil => exact List.prefix_rfl
  | cons c rest ih =>
    rw [withoutTail]
    split_ifs
    · exact List.nil_prefix
    · exact (List.prefix_cons_inj c).mpr ih

/-- A text has no comment if and only if taking comments out leaves it as it is. -/
theorem comment?_eq_none_iff {s : List Char} :
    comment? s = none ↔ withoutParens s = s ∧ withoutTail s = s := by
  induction s with
  | nil => simp [comment?, withoutParens, withoutTail]
  | cons c rest ih =>
    rw [comment?, withoutTail]
    by_cases hopens : opensComment c rest = true
    · rw [if_pos hopens]
      refine iff_of_false (Option.some_ne_none _) fun h => ?_
      have := (withoutParens_sublist_of_opens hopens).length_le
      rw [h.1, List.length_cons] at this
      omega
    · rw [if_neg hopens, withoutParens_cons hopens, List.cons_inj_right]
      by_cases hstarts : startsTail c rest = true
      · rw [if_pos hstarts, if_pos hstarts]
        exact iff_of_false (Option.some_ne_none _) fun h => List.cons_ne_nil c rest h.2.symm
      · rw [if_neg hstarts, if_neg hstarts, List.cons_inj_right, ih]

/-- A text loses a parenthesis or stays as it is. -/
theorem withoutParens_eq_self {s : List Char} (h : (withoutParens s).count '(' = s.count '(') :
    withoutParens s = s := by
  induction s with
  | nil => simp [withoutParens]
  | cons c rest ih =>
    by_cases hopens : opensComment c rest = true
    · have := (withoutParens_sublist_of_opens hopens).count_le '('
      obtain ⟨rfl, -⟩ := opensComment_iff.mp hopens
      rw [h, List.count_cons_self] at this
      omega
    · rw [withoutParens_cons hopens] at h ⊢
      rw [List.count_cons, List.count_cons, Nat.add_right_cancel_iff] at h
      rw [ih h]

/-- A text loses a semicolon or stays as it is. -/
theorem withoutTail_eq_self {s : List Char} (h : (withoutTail s).count ';' = s.count ';') :
    withoutTail s = s := by
  induction s with
  | nil => rfl
  | cons c rest ih =>
    rw [withoutTail] at h ⊢
    split_ifs at h ⊢ with hstarts
    · obtain ⟨rfl, -⟩ := startsTail_iff.mp hstarts
      rw [List.count_nil, List.count_cons_self] at h
      omega
    · rw [List.count_cons, List.count_cons, Nat.add_right_cancel_iff] at h
      rw [ih h]

/-- Finding a comment and taking comments out agree on whether there is one. -/
theorem comment?_eq_none_iff_code {s : List Char} : comment? s = none ↔ code s = trim s := by
  rw [comment?_eq_none_iff]
  constructor
  · rintro ⟨hparens, htail⟩
    rw [code, hparens, htail]
  · intro h
    have hcount : ∀ {c : Char}, isBlank c = false →
        (withoutTail (withoutParens s)).count c = s.count c := by
      intro c hc
      calc (withoutTail (withoutParens s)).count c = (code s).count c := (count_trim hc _).symm
        _ = (trim s).count c := by rw [h]
        _ = s.count c := count_trim hc s
    -- Both passes only take characters away, so neither took one of its own marks.
    have hparens : withoutParens s = s := by
      refine withoutParens_eq_self (Nat.le_antisymm ((withoutParens_sublist s).count_le '(') ?_)
      rw [← hcount (c := '(') (by decide)]
      exact (withoutTail_isPrefix _).sublist.count_le '('
    refine ⟨hparens, withoutTail_eq_self ?_⟩
    have := hcount (c := ';') (by decide)
    rwa [hparens] at this

/-- Nothing but a comment can be on a block without fields. -/
theorem isSome_comment_of_read {s : List Char} {b : Block} (h : read s = some b)
    (hfields : b.fields = none) : b.comment.isSome = true := by
  by_cases hempty : (trim s).isEmpty = true
  · simp [read, hempty] at h
  · simp only [read, if_neg hempty, Option.some.injEq] at h
    subst h
    rw [Option.isSome_map, Option.isSome_iff_ne_none]
    intro hnone
    have hcode : code (trim s) = trim s := by
      rw [comment?_eq_none_iff_code.mp hnone, trim_trim]
    simp [hcode, hempty] at hfields

/-! ### What is left of a line -/

def Unclosed (s : List Char) : Prop :=
  ∀ before after, s = before ++ '(' :: after → ')' ∉ after

theorem Unclosed.of_isInfix {s t : List Char} (ht : Unclosed t) (h : s <:+: t) : Unclosed s := by
  obtain ⟨left, right, rfl⟩ := h
  rintro before after rfl hclose
  exact ht (left ++ before) (after ++ right) (by simp) (List.mem_append_left _ hclose)

theorem unclosed_cons {c : Char} {s : List Char} (hc : c = '(' → ')' ∉ s) (hs : Unclosed s) :
    Unclosed (c :: s) := by
  intro before after heq
  cases before with
  | nil =>
    obtain ⟨rfl, rfl⟩ := List.cons.inj heq
    exact hc rfl
  | cons d before => exact hs before after (List.cons.inj heq).2

theorem unclosed_withoutParens (s : List Char) : Unclosed (withoutParens s) := by
  induction s using withoutParens.induct with
  | case1 => simp [withoutParens, Unclosed]
  | case2 c rest hopens ih =>
    rw [withoutParens, if_pos hopens]
    exact ih
  | case3 c rest hopens ih =>
    rw [withoutParens_cons hopens]
    refine unclosed_cons ?_ ih
    rintro rfl hclose
    exact hopens (opensComment_iff.mpr ⟨rfl, mem_of_mem_withoutParens hclose⟩)

/-- Nothing is taken out where no parenthesis is closed. -/
theorem Unclosed.withoutParens_eq {s : List Char} (h : Unclosed s) : withoutParens s = s := by
  induction s with
  | nil => simp [withoutParens]
  | cons c rest ih =>
    have hopens : ¬ opensComment c rest = true := by
      intro hopens
      obtain ⟨rfl, hclose⟩ := opensComment_iff.mp hopens
      exact h [] rest rfl hclose
    rw [withoutParens_cons hopens, ih (h.of_isInfix (List.suffix_cons c rest).isInfix)]

/-- A text in which nothing starts a comment, and without blanks at its ends. -/
structure Bare (s : List Char) : Prop where
  semicolon : ';' ∉ s
  unclosed : Unclosed s
  first : ∀ c ∈ s.head?, isBlank c = false
  last : ∀ c ∈ s.getLast?, isBlank c = false

/-- Nothing in the code of a line starts a comment, and no blank is at its ends. -/
theorem bare_code {s : List Char} (h : '\n' ∉ s) : Bare (code s) := by
  rw [code_eq h]
  have hpart := trim_isInfix ((withoutParens s).takeWhile (· != ';'))
  exact
    { semicolon := fun hmem => by
        have := List.mem_takeWhile_imp (hpart.subset hmem)
        simp at this
      unclosed := (unclosed_withoutParens s).of_isInfix
        (hpart.trans (List.takeWhile_prefix _).isInfix)
      first := fun _ => isBlank_of_mem_head?_trim
      last := fun _ => isBlank_of_mem_getLast?_trim }

theorem mem_of_mem_code {s : List Char} {c : Char} (h : c ∈ code s) : c ∈ s :=
  mem_of_mem_withoutParens ((withoutTail_isPrefix _).subset ((trim_isInfix _).subset h))

/-- Once comments are taken out of a line, there are none to take out. -/
theorem code_code {s : List Char} (h : '\n' ∉ s) : code (code s) = code s := by
  have hbare := bare_code h
  have hfeed : '\n' ∉ code s := fun hmem => h (mem_of_mem_code hmem)
  rw [code_eq hfeed, hbare.unclosed.withoutParens_eq,
    takeWhile_of_not_mem hbare.semicolon, code, trim_trim]

/-- Finding comments and taking them out agree about a text. -/
structure CommentsAgree (s : List Char) : Prop where
  /-- The comment that is found is the first one. -/
  comment : FoundFirst StandsComment s (comment? s)
  none_iff : comment? s = none ↔ code s = trim s
  /-- A block has fields unless there is nothing but comments on it. -/
  fields : ∀ b, read s = some b → b.fields = none → b.comment.isSome = true
  /-- Within a line, comments need to be taken out only once. -/
  line : '\n' ∉ s → Bare (code s) ∧ code (code s) = code s

/-- For every line, what is found as a comment and what is left as code fit together. -/
theorem commentsAgree (s : List Char) : CommentsAgree s where
  comment := foundFirst_comment? s
  none_iff := comment?_eq_none_iff_code
  fields _ := isSome_comment_of_read
  line h := ⟨bare_code h, code_code h⟩

end Milling.Block
