import Milling.Proofs.Json.Reader
/-!
Trees that JSON keeps as they are.

A tree is plain if it is made of what a value is written as: finite doubles, words of the machine,
texts, lists that are closed and records. The text of a plain tree is read as that tree as soon as
each of its doubles survives (`Json.reread_eq`).
-/

namespace Milling

namespace Datum

/-- A tree of finite doubles, words and texts. -/
inductive Plain : Datum → Prop
  | null : Plain .null
  | flag (value : Bool) : Plain (.flag value)
  | whole {n : Nat} : n < wordBound → Plain (.whole n)
  | real {value : Float} : value.isFinite = true → Plain (.real value)
  | text (value : String) : Plain (.text value)
  | list {items : List Datum} : (∀ item ∈ items, item.Plain) → Plain (.list true items)
  | record {entries : List (String × Datum)} :
      (∀ entry ∈ entries, entry.2.Plain) → Plain (.record entries)

theorem plain_real_iff {value : Float} : (real value).Plain ↔ value.isFinite = true :=
  ⟨fun | .real h => h, .real⟩

theorem plain_record_iff {entries : List (String × Datum)} :
    (record entries).Plain ↔ ∀ entry ∈ entries, entry.2.Plain :=
  ⟨fun | .record h => h, .record⟩

mutual

def numbers : Datum → List Float
  | .real value => [value]
  | .list _ items => itemNumbers items
  | .record entries => entryNumbers entries
  | _ => []

def itemNumbers : List Datum → List Float
  | [] => []
  | item :: items => numbers item ++ itemNumbers items

def entryNumbers : List (String × Datum) → List Float
  | [] => []
  | (_, value) :: entries => numbers value ++ entryNumbers entries

end

theorem numbers_subset_items {item : Datum} {items : List Datum} (h : item ∈ items) :
    item.numbers ⊆ itemNumbers items := by
  induction items with
  | nil => cases h
  | cons first rest ih =>
    rw [itemNumbers]
    rcases List.mem_cons.mp h with rfl | h
    · exact List.subset_append_left _ _
    · exact List.subset_append_of_subset_right _ (ih h)

theorem numbers_subset_entries {entry : String × Datum} {entries : List (String × Datum)}
    (h : entry ∈ entries) : entry.2.numbers ⊆ entryNumbers entries := by
  induction entries with
  | nil => cases h
  | cons first rest ih =>
    rw [entryNumbers]
    rcases List.mem_cons.mp h with rfl | h
    · exact List.subset_append_left _ _
    · exact List.subset_append_of_subset_right _ (ih h)

end Datum

namespace Json

open Decimal (text value_text)

/-- An integer within a word is read as it is. -/
theorem rereadScalar_whole {n : Nat} (h : n < wordBound) : rereadScalar (.whole n) = .whole n := by
  have hvalue : 10 ^ (text n).length * 0 + Decimal.value (text n) = n := by
    rw [Nat.mul_zero, Nat.zero_add, value_text]
  have hextend : extend 0 (text n) = (n, []) := by
    rw [extend_of_lt (hvalue.symm ▸ h), hvalue]
  change whole (decide ((n : Int) < 0)) (text (n : Int).natAbs) = .whole n
  rw [decide_eq_false (by omega), Int.natAbs_natCast, whole]
  simp only [bounded, hextend, extend]
  rfl

theorem rereadItems_eq {items : List Datum} (h : ∀ item ∈ items, reread item = item) :
    rereadItems items = items := by
  induction items with
  | nil => rfl
  | cons item rest ih =>
    obtain ⟨hitem, hrest⟩ := List.forall_mem_cons.mp h
    rw [rereadItems, hitem, ih hrest]

theorem rereadEntries_eq {entries : List (String × Datum)}
    (h : ∀ entry ∈ entries, reread entry.2 = entry.2) : rereadEntries entries = entries := by
  induction entries with
  | nil => rfl
  | cons entry rest ih =>
    obtain ⟨hentry, hrest⟩ := List.forall_mem_cons.mp h
    rw [rereadEntries, hentry, ih hrest]

/-- The text of a plain tree is read as the tree if every double of the tree survives. -/
theorem reread_eq {d : Datum} (h : d.Plain)
    (hnumbers : ∀ x ∈ d.numbers, carried x = x) : reread d = d := by
  induction h with
  | null => rfl
  | flag value => rfl
  | whole hn => exact rereadScalar_whole hn
  | @real value hfinite =>
    change (if value.isFinite then Datum.real (carried value) else .null) = .real value
    rw [if_pos hfinite, hnumbers value (List.mem_singleton_self value)]
  | text value => rfl
  | list _ ih =>
    rw [reread, rereadItems_eq fun item hitem =>
      ih item hitem fun x hx => hnumbers x (Datum.numbers_subset_items hitem hx)]
  | record _ ih =>
    rw [reread, rereadEntries_eq fun entry hentry =>
      ih entry hentry fun x hx => hnumbers x (Datum.numbers_subset_entries hentry hx)]

end Json

end Milling
