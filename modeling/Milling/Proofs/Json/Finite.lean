import Milling.Json.Reader
import Milling.Proofs.Json.Number
/-!
Every number that is read from JSON is finite.

A text can name numbers of any size, but one that is out of range of the doubles is no number of the
tree that is read (`isFinite_parse?`). So what a value is decoded from, at any depth, holds finite
numbers only.
-/

namespace Milling

open Binary64

namespace Datum

/-- All numbers of a tree are finite when they are taken as doubles. -/
inductive IsFinite : Datum → Prop
  | null : IsFinite .null
  | flag (value : Bool) : IsFinite (.flag value)
  | whole {value : Int} : (Float.ofInt value).isFinite = true → IsFinite (.whole value)
  | real {value : Float} : value.isFinite = true → IsFinite (.real value)
  | text (value : String) : IsFinite (.text value)
  | list {closed : Bool} {items : List Datum} :
      (∀ item ∈ items, item.IsFinite) → IsFinite (.list closed items)
  | record {entries : List (String × Datum)} :
      (∀ entry ∈ entries, entry.2.IsFinite) → IsFinite (.record entries)
  | unusable : IsFinite .unusable

variable {d : Datum}

theorem IsFinite.float? (h : d.IsFinite) {x : Float} (hx : d.float? = some x) :
    x.isFinite = true := by
  cases h with
  | whole hvalue => exact Option.some.inj hx ▸ hvalue
  | real hvalue => exact Option.some.inj hx ▸ hvalue
  | _ => cases hx

/-- The fields of a structure are parts of the tree. -/
theorem IsFinite.fields? (h : d.IsFinite) {names : List String} {defaulted : Bool}
    {fields : List (Option Datum)} (hfields : d.fields? names defaulted = some fields) :
    ∀ field ∈ fields, ∀ value ∈ field, value.IsFinite := by
  cases h with
  | @record entries hentries =>
    rw [Datum.fields?] at hfields
    split at hfields
    · obtain rfl := Option.some.inj hfields
      intro field hfield value hvalue
      obtain ⟨name, -, rfl⟩ := List.mem_map.mp hfield
      obtain ⟨before, after, rfl, -⟩ := List.lookup_eq_some_iff.mp hvalue
      exact hentries (name, value) (by simp)
    · cases hfields
  | @list closed items hitems =>
    rw [Datum.fields?] at hfields
    split at hfields
    · cases hfields
    · obtain rfl := Option.some.inj hfields
      intro field hfield value hvalue
      obtain ⟨named, -, rfl⟩ := List.mem_map.mp hfield
      exact hitems value (List.mem_of_getElem? hvalue)
  | _ => cases hfields

end Datum

namespace Json

/-! ### Numbers -/

theorem isFinite_ofNat {n : Nat} (h : n < wordBound) : (Float.ofNat n).isFinite = true :=
  isFinite_of_value (value?_ofNat h).1

theorem bounded_digits_lt (whole fraction : List Char) (exponent : Int) :
    (bounded whole fraction exponent).digits < wordBound := by
  have hwhole := (extend_bounds whole (by decide : 0 < wordBound)).2.1
  exact (extend_bounds fraction hwhole).2.1

theorem isFinite_real (negative : Bool) (d : Decimal) : (real negative d).IsFinite := by
  unfold real
  dsimp only
  split
  · rename_i hfinite
    split
    · exact .real (isFinite_neg hfinite)
    · exact .real hfinite
  · exact .unusable

theorem isFinite_whole (negative : Bool) (digits : List Char) : (whole negative digits).IsFinite := by
  have hdigits := bounded_digits_lt digits [] 0
  unfold whole
  dsimp only
  split
  · exact .whole (isFinite_ofNat hdigits)
  split
  · rename_i hnegative
    obtain ⟨n, hn⟩ := Nat.exists_eq_add_one.mpr hnegative.2.1
    rw [hn] at hdigits ⊢
    exact .whole (isFinite_neg (isFinite_ofNat hdigits))
  · exact isFinite_real _ _

/-- Numbers that are not finite are refused by the reader. -/
theorem isFinite_spanNumber {s rest : List Char} {number : Datum}
    (h : spanNumber s = some (number, rest)) : number.IsFinite := by
  unfold spanNumber at h
  dsimp only at h
  split at h
  · cases h
  · cases h
  · simp only [Option.bind_eq_bind, Option.bind_eq_some_iff] at h
    obtain ⟨⟨fraction, hasFraction, rest₁⟩, -, ⟨exponent, hasExponent, rest₂⟩, -, h⟩ := h
    dsimp only at h
    split at h
    · cases h
      exact isFinite_real _ _
    · cases h
      exact isFinite_whole _ _

/-! ### Tokens -/

/-- A token that stands for a number stands for a finite one. -/
def Token.IsFinite : Token → Prop
  | scalar value => value.IsFinite
  | _ => True

def AllFinite (ts : List Token) : Prop :=
  ∀ t ∈ ts, t.IsFinite

theorem allFinite_cons {t : Token} {ts : List Token} :
    AllFinite (t :: ts) ↔ t.IsFinite ∧ AllFinite ts :=
  List.forall_mem_cons

theorem isFinite_spanToken {s rest : List Char} {t : Token} (h : spanToken s = some (t, rest)) :
    t.IsFinite := by
  unfold spanToken at h
  split at h
  case h_7 =>
    obtain ⟨read, -, hread⟩ := Option.map_eq_some_iff.mp h
    cases hread
    exact trivial
  case h_8 =>
    cases h
    exact .null
  case h_9 =>
    cases h
    exact .flag true
  case h_10 =>
    cases h
    exact .flag false
  case h_11 =>
    obtain ⟨⟨number, rest'⟩, hnumber, hread⟩ := Option.map_eq_some_iff.mp h
    cases hread
    exact isFinite_spanNumber hnumber
  all_goals
    cases h
    exact trivial

theorem allFinite_spanTokens {s : List Char} {seen ts : List Token} {budget : Nat}
    (h : spanTokens seen budget s = some ts) (hseen : AllFinite seen) : AllFinite ts := by
  induction budget generalizing s seen with
  | zero =>
    unfold spanTokens at h
    split at h
    · cases h
      exact fun t ht => hseen t (List.mem_reverse.mp ht)
    · cases h
  | succ budget ih =>
    unfold spanTokens at h
    split at h
    · cases h
      exact fun t ht => hseen t (List.mem_reverse.mp ht)
    · dsimp only at h
      split at h
      · rename_i t rest' hspan
        exact ih h (allFinite_cons.mpr ⟨isFinite_spanToken hspan, hseen⟩)
      · cases h

/-! ### Trees -/

/-- What is read within a budget from tokens that stand for finite numbers. -/
structure SpansFinite (budget : Nat) : Prop where
  value {ts rest : List Token} {d : Datum} : AllFinite ts →
    spanValue budget ts = some (d, rest) → d.IsFinite ∧ AllFinite rest
  items {ts rest : List Token} {ds : List Datum} : AllFinite ts →
    spanItems budget ts = some (ds, rest) → (∀ d ∈ ds, d.IsFinite) ∧ AllFinite rest
  entries {ts rest : List Token} {found : Option (List (String × Datum))} : AllFinite ts →
    spanEntries budget ts = some (found, rest) →
      (∀ entries ∈ found, ∀ entry ∈ entries, entry.2.IsFinite) ∧ AllFinite rest

namespace SpansFinite

variable {budget : Nat} {ts rest : List Token}

theorem value_succ (h : SpansFinite budget) {d : Datum} (hts : AllFinite ts)
    (hspan : spanValue (budget + 1) ts = some (d, rest)) : d.IsFinite ∧ AllFinite rest := by
  unfold spanValue at hspan
  split at hspan
  case h_1 => cases hspan
  case h_2 =>
    cases hspan
    exact allFinite_cons.mp hts
  case h_3 =>
    cases hspan
    exact ⟨.text _, (allFinite_cons.mp hts).2⟩
  case h_4 =>
    cases hspan
    exact ⟨.unusable, (allFinite_cons.mp hts).2⟩
  case h_5 =>
    cases hspan
    exact ⟨.list nofun, (allFinite_cons.mp (allFinite_cons.mp hts).2).2⟩
  case h_6 heq =>
    cases heq
    obtain ⟨⟨items, rest'⟩, hitems, hread⟩ := Option.map_eq_some_iff.mp hspan
    cases hread
    obtain ⟨hfinite, hrest⟩ := h.items (allFinite_cons.mp hts).2 hitems
    exact ⟨.list hfinite, hrest⟩
  case h_7 =>
    cases hspan
    exact ⟨.record nofun, (allFinite_cons.mp (allFinite_cons.mp hts).2).2⟩
  case h_8 heq =>
    cases heq
    obtain ⟨⟨found, rest'⟩, hentries, hread⟩ := Option.map_eq_some_iff.mp hspan
    obtain ⟨hfinite, hrest⟩ := h.entries (allFinite_cons.mp hts).2 hentries
    cases found with
    | none =>
      cases hread
      exact ⟨.unusable, hrest⟩
    | some entries =>
      cases hread
      exact ⟨.record (hfinite entries rfl), hrest⟩
  case h_9 => cases hspan

theorem items_succ (h : SpansFinite budget) {ds : List Datum} (hts : AllFinite ts)
    (hspan : spanItems (budget + 1) ts = some (ds, rest)) :
    (∀ d ∈ ds, d.IsFinite) ∧ AllFinite rest := by
  unfold spanItems at hspan
  split at hspan
  · rename_i hitem
    cases hspan
    obtain ⟨hfinite, hrest⟩ := h.value hts hitem
    exact ⟨by simpa using hfinite, (allFinite_cons.mp hrest).2⟩
  · rename_i hitem
    obtain ⟨hfinite, hrest⟩ := h.value hts hitem
    obtain ⟨⟨items, rest'⟩, hitems, hread⟩ := Option.map_eq_some_iff.mp hspan
    cases hread
    obtain ⟨hothers, hrest⟩ := h.items (allFinite_cons.mp hrest).2 hitems
    exact ⟨List.forall_mem_cons.mpr ⟨hfinite, hothers⟩, hrest⟩
  · cases hspan

theorem entries_succ (h : SpansFinite budget) {found : Option (List (String × Datum))}
    (hts : AllFinite ts) (hspan : spanEntries (budget + 1) ts = some (found, rest)) :
    (∀ entries ∈ found, ∀ entry ∈ entries, entry.2.IsFinite) ∧ AllFinite rest := by
  unfold spanEntries at hspan
  split at hspan
  case h_1 => cases hspan
  case h_2 key ts' heq =>
    cases heq
    have hts := (allFinite_cons.mp (allFinite_cons.mp hts).2).2
    split at hspan
    · rename_i hvalue
      cases hspan
      obtain ⟨hfinite, hrest⟩ := h.value hts hvalue
      refine ⟨?_, (allFinite_cons.mp hrest).2⟩
      rintro entries hentries
      obtain ⟨key, -, rfl⟩ := Option.map_eq_some_iff.mp hentries
      simpa using hfinite
    · rename_i hvalue
      obtain ⟨hfinite, hrest⟩ := h.value hts hvalue
      obtain ⟨⟨others, rest'⟩, hothers, hread⟩ := Option.map_eq_some_iff.mp hspan
      cases hread
      obtain ⟨hall, hrest⟩ := h.entries (allFinite_cons.mp hrest).2 hothers
      refine ⟨?_, hrest⟩
      rintro entries hentries
      obtain ⟨key, -, hentries⟩ := Option.bind_eq_some_iff.mp hentries
      obtain ⟨later, hlater, rfl⟩ := Option.map_eq_some_iff.mp hentries
      exact List.forall_mem_cons.mpr ⟨hfinite, hall later hlater⟩
    · cases hspan
  case h_3 => cases hspan

end SpansFinite

/-- Values, items and entries are read of finite numbers alone; the induction is on the budget of
the reader. -/
theorem spansFinite (budget : Nat) : SpansFinite budget := by
  induction budget with
  | zero => exact ⟨fun _ h => by simp [spanValue] at h, fun _ h => by simp [spanItems] at h,
      fun _ h => by simp [spanEntries] at h⟩
  | succ budget ih => exact ⟨ih.value_succ, ih.items_succ, ih.entries_succ⟩

/-- Every number that is read is finite. -/
theorem isFinite_parse? {s : String} {d : Datum} (h : parse? s = some d) : d.IsFinite := by
  obtain ⟨ts, hts, hvalue⟩ := Option.bind_eq_some_iff.mp h
  unfold ofTokens? at hvalue
  split at hvalue
  · rename_i hspan
    cases hvalue
    exact ((spansFinite _).value (allFinite_spanTokens hts nofun) hspan).1
  · cases hvalue

end Json

end Milling
