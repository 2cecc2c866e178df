import Milling.Json.Reader
import Milling.Json.Writer
import Milling.Proofs.Json.Token
/-!
Reading back values of JSON.

What was written on one line is read as the same tree, with its numbers as they are carried and with
null for the numbers that are not finite (`parse?_compact`).
-/

namespace Milling.Json

mutual

/-- What the text of a value is read as. -/
def reread : Datum → Datum
  | .list _ items => .list true (rereadItems items)
  | .record entries => .record (rereadEntries entries)
  | .text value => .text value
  | value => rereadScalar value

def rereadItems : List Datum → List Datum
  | [] => []
  | item :: items => reread item :: rereadItems items

def rereadEntries : List (String × Datum) → List (String × Datum)
  | [] => []
  | (key, value) :: entries => (key, reread value) :: rereadEntries entries

end

/-! ### The text spells the tokens -/

theorem stops_itemTokens (items : List Datum) (s : List Char) :
    Stops ((itemTokens items).flatMap Token.chars ++ s) := by
  cases items <;> rintro c ⟨⟩ <;> decide

theorem stops_entryTokens (entries : List (String × Datum)) (s : List Char) :
    Stops ((entryTokens entries).flatMap Token.chars ++ s) := by
  cases entries <;> rintro c ⟨⟩ <;> decide

theorem spells_singleton {s : List Char} {ts : List Token} (t : Token)
    (hs : t.isScalar = true → Stops s) (h : Spells s ts) :
    Spells ([t].flatMap Token.chars ++ s) ([t] ++ ts) := by
  rw [List.flatMap_singleton]
  exact .token t hs h

mutual

/-- The tokens of a value, with their texts one after the other. -/
theorem spells_tokens {s : List Char} {ts : List Token} (hs : Stops s) (h : Spells s ts) :
    ∀ d : Datum, Spells ((tokens d).flatMap Token.chars ++ s) (tokens d ++ ts)
  | .list _ [] => .token .openList nofun (.token .closeList nofun h)
  | .list _ (item :: items) => by
    have hitem := spells_tokens (stops_itemTokens items s) (spells_itemTokens h items) item
    rw [tokens, List.flatMap_cons, List.flatMap_append, List.append_assoc, List.append_assoc,
      List.cons_append, List.append_assoc]
    exact .token .openList nofun hitem
  | .record [] => .token .openRecord nofun (.token .closeRecord nofun h)
  | .record ((key, value) :: entries) => by
    have hvalue := spells_tokens (stops_entryTokens entries s) (spells_entryTokens h entries) value
    rw [tokens, List.flatMap_cons, List.flatMap_cons, List.flatMap_cons, List.flatMap_append]
    simp only [List.append_assoc, List.cons_append]
    exact .token .openRecord nofun (.token (.text (some key)) nofun (.token .colon nofun hvalue))
  | .text value => spells_singleton (.text (some value)) nofun h
  | .null => spells_singleton (.scalar .null) (fun _ => hs) h
  | .flag value => spells_singleton (.scalar (.flag value)) (fun _ => hs) h
  | .whole value => spells_singleton (.scalar (.whole value)) (fun _ => hs) h
  | .real value => spells_singleton (.scalar (.real value)) (fun _ => hs) h
  | .unusable => spells_singleton (.scalar .unusable) (fun _ => hs) h

theorem spells_itemTokens {s : List Char} {ts : List Token} (h : Spells s ts) :
    ∀ items : List Datum,
      Spells ((itemTokens items).flatMap Token.chars ++ s) (itemTokens items ++ ts)
  | [] => .token .closeList nofun h
  | item :: items => by
    have hitem := spells_tokens (stops_itemTokens items s) (spells_itemTokens h items) item
    rw [itemTokens, List.flatMap_cons, List.flatMap_append]
    simp only [List.append_assoc, List.cons_append]
    exact .token .comma nofun hitem

theorem spells_entryTokens {s : List Char} {ts : List Token} (h : Spells s ts) :
    ∀ entries : List (String × Datum),
      Spells ((entryTokens entries).flatMap Token.chars ++ s) (entryTokens entries ++ ts)
  | [] => .token .closeRecord nofun h
  | (key, value) :: entries => by
    have hvalue := spells_tokens (stops_entryTokens entries s) (spells_entryTokens h entries) value
    rw [entryTokens, List.flatMap_cons, List.flatMap_cons, List.flatMap_cons, List.flatMap_append]
    simp only [List.append_assoc, List.cons_append]
    exact .token .comma nofun (.token (.text (some key)) nofun (.token .colon nofun hvalue))

end

/-! ### The tokens are those of the value -/

/-- No value starts with the end of a list. -/
theorem reread_tokens_ne (d : Datum) (ts rest : List Token) :
    (tokens d).map Token.reread ++ ts ≠ .closeList :: rest := by
  cases d with
  | list closed items => cases items <;> rintro ⟨⟩
  | record entries => cases entries <;> rintro ⟨⟩
  | _ => rintro ⟨⟩

section Steps

variable {budget : Nat} {ts rest : List Token} {value : Datum}

theorem spanValue_openList (h : ∀ rest, ts ≠ .closeList :: rest) :
    spanValue (budget + 1) (.openList :: ts) =
      (spanItems budget ts).map fun (items, rest) => (.list true items, rest) := by
  rw [spanValue]
  exact h

theorem spanItems_last (h : spanValue budget ts = some (value, .closeList :: rest)) :
    spanItems (budget + 1) ts = some ([value], rest) := by
  rw [spanItems, h]

theorem spanItems_more (h : spanValue budget ts = some (value, .comma :: rest)) :
    spanItems (budget + 1) ts =
      (spanItems budget rest).map fun (items, rest) => (value :: items, rest) := by
  rw [spanItems, h]

theorem spanValue_openRecord {key : Option String} :
    spanValue (budget + 1) (.openRecord :: .text key :: ts) =
      (spanEntries budget (.text key :: ts)).map fun (entries, rest) =>
        match entries with
        | some entries => (.record entries, rest)
        | none => (.unusable, rest) :=
  rfl

theorem spanEntries_last {key : String}
    (h : spanValue budget ts = some (value, .closeRecord :: rest)) :
    spanEntries (budget + 1) (.text (some key) :: .colon :: ts) = some (some [(key, value)], rest) := by
  rw [spanEntries, h]
  rfl

theorem spanEntries_more {key : String} (h : spanValue budget ts = some (value, .comma :: rest)) :
    spanEntries (budget + 1) (.text (some key) :: .colon :: ts) =
      (spanEntries budget rest).map fun (entries, rest) =>
        (entries.map ((key, value) :: ·), rest) := by
  rw [spanEntries, h]
  rfl

end Steps

mutual

/-- The reader takes from the tokens of a value what their texts are read as. -/
theorem spanValue_tokens (rest : List Token) :
    ∀ (d : Datum) (budget : Nat), (tokens d).length ≤ budget →
      spanValue budget ((tokens d).map Token.reread ++ rest) = some (reread d, rest)
  | .list _ [], budget + 1, _ => rfl
  | .list _ (item :: items), budget + 1, h => by
    rw [tokens, List.length_cons] at h
    have hitems := spanItems_tokens rest item items budget (Nat.le_of_succ_le_succ h)
    have hopen : ∀ ts, (tokens item ++ itemTokens items).map Token.reread ++ rest ≠
        .closeList :: ts := by
      intro ts
      rw [List.map_append, List.append_assoc]
      exact reread_tokens_ne item _ ts
    rw [tokens, List.map_cons, List.cons_append]
    change spanValue (budget + 1) (.openList :: _) = _
    rw [spanValue_openList hopen, hitems]
    rfl
  | .record [], budget + 1, _ => rfl
  | .record ((key, value) :: entries), budget + 1, h => by
    rw [tokens, List.length_cons, List.length_cons, List.length_cons] at h
    have hentries := spanEntries_tokens rest key value entries budget (by omega)
    rw [tokens, List.map_cons, List.map_cons, List.map_cons, List.cons_append, List.cons_append,
      List.cons_append]
    change spanValue (budget + 1) (.openRecord :: .text (some key) :: .colon :: _) = _
    rw [spanValue_openRecord, hentries]
    rfl
  | .text value, budget + 1, _ => rfl
  | .null, budget + 1, _ => rfl
  | .flag value, budget + 1, _ => rfl
  | .whole value, budget + 1, _ => rfl
  | .real value, budget + 1, _ => rfl
  | .unusable, budget + 1, _ => rfl
termination_by d => sizeOf d

/-- Items are read up to the end of their list, each as it is read alone. -/
theorem spanItems_tokens (rest : List Token) :
    ∀ (item : Datum) (items : List Datum) (budget : Nat),
      (tokens item ++ itemTokens items).length ≤ budget →
      spanItems budget ((tokens item ++ itemTokens items).map Token.reread ++ rest) =
        some (reread item :: rereadItems items, rest)
  | item, [], budget, h => by
    rw [List.length_append, itemTokens, List.length_singleton] at h
    obtain ⟨budget, rfl⟩ := Nat.exists_eq_add_of_le' (Nat.le_of_add_left_le h)
    have hitem := spanValue_tokens (.closeList :: rest) item budget (Nat.le_of_succ_le_succ h)
    rw [List.map_append, List.append_assoc]
    exact spanItems_last hitem
  | item, next :: items, budget, h => by
    rw [List.length_append, itemTokens, List.length_cons] at h
    obtain ⟨budget, rfl⟩ : ∃ b, budget = b + 1 := ⟨budget - 1, by omega⟩
    have hnext := spanItems_tokens rest next items budget (by omega)
    have hitem := spanValue_tokens (.comma ::
      ((tokens next ++ itemTokens items).map Token.reread ++ rest)) item budget (by omega)
    rw [List.map_append, List.append_assoc, itemTokens, List.map_cons, List.cons_append]
    change spanItems (budget + 1) (_ ++ .comma :: _) = _
    rw [spanItems_more hitem, hnext]
    rfl
termination_by item items => sizeOf item + sizeOf items + 1

theorem spanEntries_tokens (rest : List Token) :
    ∀ (key : String) (value : Datum) (entries : List (String × Datum)) (budget : Nat),
      (tokens value ++ entryTokens entries).length < budget →
      spanEntries budget (.text (some key) :: .colon ::
          ((tokens value ++ entryTokens entries).map Token.reread ++ rest)) =
        some (some ((key, reread value) :: rereadEntries entries), rest)
  | key, value, [], budget, h => by
    rw [List.length_append, entryTokens, List.length_singleton] at h
    obtain ⟨budget, rfl⟩ : ∃ b, budget = b + 1 := ⟨budget - 1, by omega⟩
    have hvalue := spanValue_tokens (.closeRecord :: rest) value budget (by omega)
    rw [List.map_append, List.append_assoc]
    exact spanEntries_last hvalue
  | key, value, (next, other) :: entries, budget, h => by
    rw [List.length_append, entryTokens, List.length_cons, List.length_cons,
      List.length_cons] at h
    obtain ⟨budget, rfl⟩ : ∃ b, budget = b + 1 := ⟨budget - 1, by omega⟩
    have hnext := spanEntries_tokens rest next other entries budget (by omega)
    have hvalue := spanValue_tokens (.comma :: .text (some next) :: .colon ::
      ((tokens other ++ entryTokens entries).map Token.reread ++ rest)) value budget (by omega)
    rw [List.map_append, List.append_assoc, entryTokens, List.map_cons, List.map_cons,
      List.map_cons, List.cons_append, List.cons_append, List.cons_append]
    change spanEntries (budget + 1) (.text (some key) :: .colon ::
      (_ ++ .comma :: .text (some next) :: .colon :: _)) = _
    rw [spanEntries_more hvalue, hnext]
    rfl
termination_by _ value entries => sizeOf value + sizeOf entries + 1

end

/-- A value is read from every text that spells its tokens. -/
theorem parse?_of_spells {s : String} {d : Datum} (h : Spells s.toList (tokens d)) :
    parse? s = some (reread d) := by
  have hvalue := spanValue_tokens [] d (2 * ((tokens d).map Token.reread).length + 1) (by
    rw [List.length_map]
    omega)
  rw [List.append_nil] at hvalue
  rw [parse?, tokens?_of_spells h, Option.bind_some, ofTokens?, hvalue]

/-- The text of a value spells its tokens. -/
theorem spells_compact (d : Datum) : Spells (compact d).toList (tokens d) := by
  have hspells := spells_tokens stops_nil .nil d
  rw [List.append_nil, List.append_nil] at hspells
  rwa [compact, String.toList_ofList]

/-- Every value that is written on one line is read. -/
theorem parse?_compact (d : Datum) : parse? (compact d) = some (reread d) :=
  parse?_of_spells (spells_compact d)

end Milling.Json
