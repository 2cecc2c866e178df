import Milling.Data.Program
import Milling.Data.Report
import Milling.Proofs.Data.Plain
import Milling.Proofs.Json.Finite
import Milling.Proofs.Preferences.Stored
/-!
Types whose JSON form is stable.

However a value was written by hand, the text that is written for it is read as the same value. What
this needs of a type is `Stable`: what it decodes from a tree of finite numbers is written as a
plain tree, and decoded from that tree again. A field keeps what it gives if it is read as it is
written, and there are three kinds of fields. A record is stable if each of its fields keeps its
values, by one induction on the readers of its fields (`Stable.ofReaders`).
-/

namespace Milling

open Datum (required withDefault orNull)

/-- A value that is written as a plain tree and decoded from its tree. -/
structure Faithful {α : Type} [Storable α] (a : α) : Prop where
  plain : (encode a).Plain
  decode_encode : decode (encode a) = some a

/-- Whatever is decoded from finite numbers is faithful. -/
class Stable (α : Type) [Storable α] : Prop where
  faithful {d : Datum} {a : α} : d.IsFinite → decode d = some a → Faithful a

namespace Json

/-- What is read of any text is read again of the text that is written for it, as far as its doubles
survive. -/
theorem read?_write_of_read? {α : Type} [Storable α] [Stable α] {s : String} {a : α}
    (h : read? s = some a) (hnumbers : ∀ x ∈ (encode a).numbers, read? (write x) = some x) :
    read? (write a) = some a := by
  obtain ⟨d, hd, ha⟩ := Option.bind_eq_some_iff.mp h
  obtain ⟨hplain, hdecode⟩ := Stable.faithful (isFinite_parse? hd) ha
  have hreread : reread (encode a) = encode a :=
    reread_eq hplain fun x hx => carried_of_read? (hnumbers x hx)
  rw [read?_write, returned, hreread, hdecode]

end Json

/-! ### Single values -/

instance : Stable Bool where
  faithful {_ b} _ _ := ⟨.flag b, rfl⟩

instance : Stable String where
  faithful {_ s} _ _ := ⟨.text s, rfl⟩

/-- Integers are taken for numbers too, but a number is never written as an integer. -/
instance : Stable Float where
  faithful hd hx := ⟨.real (hd.float? hx), rfl⟩

theorem Datum.lt_of_nat? {d : Datum} {bound n : Nat} (h : d.nat? bound = some n) : n < bound := by
  unfold Datum.nat? at h
  split at h
  · split at h
    · cases h
      omega
    · cases h
  · cases h

theorem Datum.nat?_whole {bound n : Nat} (h : n < bound) : (whole n).nat? bound = some n := by
  have hrange : (0 : Int) ≤ n ∧ (n : Int) < bound := by omega
  rw [nat?, if_pos hrange, Int.toNat_natCast]

instance : Stable Nat where
  faithful {_ _} _ hn := ⟨.whole (Datum.lt_of_nat? hn), Datum.nat?_whole (Datum.lt_of_nat? hn)⟩

theorem decode_encode_channel (n : UInt8) : (decode (encode n) : Option UInt8) = some n := by
  change (Datum.nat? 256 (.whole n.toNat)).map UInt8.ofNat = some n
  rw [Datum.nat?_whole n.toNat_lt, Option.map_some, UInt8.ofNat_toNat]

instance : Stable UInt8 where
  faithful {_ n} _ _ :=
    ⟨.whole (n.toNat_lt.trans (by decide)), decode_encode_channel n⟩

instance : Stable Motion where
  faithful {_ m} _ _ := ⟨.text m.name, by cases m <;> decide⟩

instance : Stable MoveKind where
  faithful {_ k} _ _ := ⟨.text k.name, by cases k <;> decide⟩

instance : Stable Lint.Severity where
  faithful {_ s} _ _ := ⟨.text s.label, by cases s <;> decide⟩

/-! ### Lists -/

section

variable {α : Type} [Storable α] [Stable α]

/-- Items that are decoded one by one are faithful one by one. -/
theorem faithful_of_mapM {items : List Datum} {as : List α} (hitems : ∀ item ∈ items, item.IsFinite)
    (h : items.mapM decode = some as) : ∀ a ∈ as, Faithful a := by
  induction items generalizing as with
  | nil =>
    cases h
    nofun
  | cons item rest ih =>
    obtain ⟨hitem, hrest⟩ := List.forall_mem_cons.mp hitems
    rw [List.mapM_cons] at h
    simp only [Option.bind_eq_bind, Option.bind_eq_some_iff] at h
    obtain ⟨a, ha, others, hothers, h⟩ := h
    cases h
    exact List.forall_mem_cons.mpr ⟨Stable.faithful hitem ha, ih hrest hothers⟩

omit [Stable α] in
theorem mapM_decode_encode {as : List α} (h : ∀ a ∈ as, Faithful a) :
    (as.map encode).mapM decode = some as := by
  induction as with
  | nil => rfl
  | cons a rest ih =>
    obtain ⟨ha, hrest⟩ := List.forall_mem_cons.mp h
    rw [List.map_cons, List.mapM_cons, ha.decode_encode, ih hrest]
    rfl

instance : Stable (List α) where
  faithful {d as} hd has := by
    obtain ⟨items, hitems, has⟩ := Option.bind_eq_some_iff.mp has
    cases hd with
    | list hfinite =>
      cases hitems
      have hall := faithful_of_mapM hfinite has
      refine ⟨.list ?_, mapM_decode_encode hall⟩
      intro item hitem
      obtain ⟨a, ha, rfl⟩ := List.mem_map.mp hitem
      exact (hall a ha).plain
    | _ => cases hitems

instance : Stable (Array α) where
  faithful {d as} hd has := by
    obtain ⟨items, hitems, rfl⟩ := Option.map_eq_some_iff.mp has
    obtain ⟨hplain, hdecode⟩ := Stable.faithful hd hitems
    exact ⟨hplain, congrArg (Option.map List.toArray) hdecode⟩

end

/-! ### Fields -/

/-- A value of a field is written as a plain tree, and the field gives it again of that tree. -/
structure Kept {β : Type} [Storable β] (read : Option Datum → Option β) (b : β) : Prop where
  plain : (encode b).Plain
  again : read (some (encode b)) = some b

/-- The field keeps all that it gives of finite numbers. -/
def Keeps {β : Type} [Storable β] (read : Option Datum → Option β) : Prop :=
  ∀ field b, (∀ d ∈ field, d.IsFinite) → read field = some b → Kept read b

section

variable {β : Type} [Storable β] [Stable β]

/-- A field that must be there keeps the values of a stable type. -/
theorem keeps_required : Keeps (required : Option Datum → Option β) := by
  intro field b hfield h
  obtain ⟨d, hd, hb⟩ := Option.bind_eq_some_iff.mp h
  obtain ⟨hplain, hdecode⟩ := Stable.faithful (hfield d hd) hb
  exact ⟨hplain, hdecode⟩

/-- A field with a default keeps its values if the default is faithful. -/
theorem keeps_withDefault {default : β} (hdefault : Faithful default) :
    Keeps (withDefault default) := by
  intro field b hfield h
  cases field with
  | none =>
    cases h
    exact ⟨hdefault.plain, hdefault.decode_encode⟩
  | some d =>
    obtain ⟨hplain, hdecode⟩ := Stable.faithful (hfield d rfl) h
    exact ⟨hplain, hdecode⟩

omit [Stable β] in
theorem orNull_of_ne {d : Datum} (h : d ≠ .null) :
    orNull (some d) = (decode d : Option β).map some := by
  cases d with
  | null => exact absurd rfl h
  | _ => rfl

/-- A field that may be missing keeps its values if none of them is written as null. -/
theorem keeps_orNull (hnull : ∀ b : β, encode b ≠ .null) :
    Keeps (orNull : Option Datum → Option (Option β)) := by
  intro field b hfield h
  have hmissing : Kept orNull (none : Option β) := ⟨.null, rfl⟩
  cases field with
  | none =>
    cases h
    exact hmissing
  | some d =>
    by_cases hd : d = .null
    · subst hd
      cases h
      exact hmissing
    · rw [orNull_of_ne hd] at h
      obtain ⟨b, hb, rfl⟩ := Option.map_eq_some_iff.mp h
      obtain ⟨hplain, hdecode⟩ := Stable.faithful (hfield d rfl) hb
      refine ⟨hplain, ?_⟩
      change orNull (some (encode b)) = _
      rw [orNull_of_ne (hnull b), hdecode, Option.map_some]

end

/-- The field for a G code keeps numbers of 32 bits, and null. -/
theorem keeps_codeField : Keeps codeField := by
  intro field code _ h
  unfold codeField at h
  split at h
  · cases h
    exact ⟨.null, rfl⟩
  · cases h
    exact ⟨.null, rfl⟩
  · obtain ⟨n, hn, rfl⟩ := Option.map_eq_some_iff.mp h
    have hlt := Datum.lt_of_nat? hn
    refine ⟨.whole (hlt.trans_le (by decide)), ?_⟩
    change (Datum.nat? (Block.greatestCode + 1) (.whole n)).map some = _
    rw [Datum.nat?_whole hlt, Option.map_some]

/-! ### Records -/

/-- Readers of fields that come one after the other, up to a value of `α`. The second type is that
of the function that is given what they read. -/
inductive Readers (α : Type) : Type → Type 1
  | done : Readers α α
  | field {β γ : Type} (storable : Storable β) (read : Option Datum → Option β)
      (keeps : Keeps read) (rest : Readers α γ) : Readers α (β → γ)

def Keeps.and {α β γ : Type} [Storable β] {read : Option Datum → Option β} (h : Keeps read)
    (rest : Readers α γ) : Readers α (β → γ) :=
  .field inferInstance read h rest

namespace Readers

variable {α γ : Type}

/-- What the function gives of the fields, none of which is left over or missing. -/
def build {γ : Type} : Readers α γ → γ → List (Option Datum) → Option α
  | .done, a, [] => some a
  | .field _ read _ rest, mk, first :: fields =>
    (read first).bind fun b => rest.build (mk b) fields
  | _, _, _ => none

/-- Values that are read are, in their order, the parts of what the function gives of them, after
the parts in front. -/
def Splits (parts : α → List Datum) {γ : Type} : Readers α γ → γ → List Datum → Prop
  | .done, a, front => parts a = front
  | .field _ _ _ rest, mk, front => ∀ b, Splits parts rest (mk b) (front ++ [encode b])

/-- Whatever is built of finite fields has plain parts, and is built of these parts again. -/
theorem kept {parts : α → List Datum} (readers : Readers α γ) {mk : γ} {front : List Datum}
    (hsplits : readers.Splits parts mk front) {fields : List (Option Datum)} {a : α}
    (hfields : ∀ field ∈ fields, ∀ d ∈ field, d.IsFinite) (h : readers.build mk fields = some a) :
    ∃ back, parts a = front ++ back ∧ (∀ part ∈ back, part.Plain) ∧
      readers.build mk (back.map some) = some a := by
  induction readers generalizing front fields with
  | done =>
    cases fields with
    | nil =>
      cases h
      have hparts : parts a = front := hsplits
      exact ⟨[], by rw [hparts, List.append_nil], nofun, rfl⟩
    | cons => cases h
  | field _ read keeps rest ih =>
    cases fields with
    | nil => cases h
    | cons field fields =>
      obtain ⟨hfield, hrest⟩ := List.forall_mem_cons.mp hfields
      obtain ⟨b, hb, ha⟩ := Option.bind_eq_some_iff.mp h
      obtain ⟨hplain, hagain⟩ := keeps field b hfield hb
      obtain ⟨back, hparts, hback, hbuild⟩ := ih (hsplits b) hrest ha
      refine ⟨encode b :: back, ?_, List.forall_mem_cons.mpr ⟨hplain, hback⟩, ?_⟩
      · rw [hparts, List.append_assoc, List.singleton_append]
      · change (read (some (encode b))).bind _ = some a
        rw [hagain, Option.bind_some, hbuild]

end Readers

/-- A record is stable if readers that keep their values, one for each of its parts, build what is
decoded of its fields. -/
theorem Stable.ofReaders {α γ : Type} [Storable α] {defaulted : Bool}
    {build : List (Option Datum) → Option α} (names : List String) (parts : α → List Datum)
    (readers : Readers α γ) (mk : γ)
    (hdecode : ∀ d, decode d = (d.fields? names defaulted).bind build)
    (hencode : ∀ a, encode a = .record (names.zip (parts a)) := by intro; rfl)
    (hnames : names.Nodup := by decide)
    (hlength : ∀ a, names.length = (parts a).length := by intro; rfl)
    (hsplits : readers.Splits parts mk [] := by
      repeat intro
      rfl)
    (hbuild : ∀ fields a, build fields = some a → readers.build mk fields = some a := by
      intro fields a h
      split at h
      · exact h
      · cases h)
    (hagain : ∀ a, build ((parts a).map some) = readers.build mk ((parts a).map some) := by
      intro; rfl) :
    Stable α where
  faithful {d a} hd ha := by
    rw [hdecode] at ha
    obtain ⟨fields, hfields, ha⟩ := Option.bind_eq_some_iff.mp ha
    obtain ⟨back, hparts, hplain, hback⟩ :=
      readers.kept hsplits (hd.fields? hfields) (hbuild fields a ha)
    rw [List.nil_append] at hparts
    refine ⟨?_, ?_⟩
    · rw [hencode, hparts]
      exact .record fun entry hentry => hplain entry.2 (List.of_mem_zip hentry).2
    · rw [hencode, hdecode, Datum.fields?_zip _ hnames (hlength a), Option.bind_some, hagain,
        hparts, hback]

end Milling
