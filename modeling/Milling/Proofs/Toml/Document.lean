import Milling.Proofs.Toml.Line
/-!
Every document is read back.

While the lines of a record are read, the table that they add to is the last entry of the table
around it, and so on up to the root (`nest`). So an entry goes to the end of the innermost table,
and a header closes what is complete and opens the next table. In the end the tables hold what was
written, the values of each record first (`parse?_document`).
-/

namespace Milling.Toml

/-! ### Tables within tables -/

/-- A table inside others. Each of these is given by the entries before the one that leads on, and
the key of that one, the outermost first. -/
def nest : List (Entries × String) → Entries → Entries
  | [], inner => inner
  | (before, key) :: outer, inner => before ++ [(key, .table .header (nest outer inner))]

/-- The keys that lead inwards are new in their tables. -/
def Fresh (outer : List (Entries × String)) : Prop :=
  ∀ level ∈ outer, level.2 ∉ level.1.map Prod.fst

def names (outer : List (Entries × String)) : List String :=
  outer.map Prod.snd

namespace Entries

variable {f : Option Node → Option Node} {key : String} {before : Entries}

/-- A new key is added at the end. -/
theorem alter_new (h : key ∉ before.map Prod.fst) :
    alter key f before = (f none).map fun node => before ++ [(key, node)] := by
  induction before with
  | nil => rfl
  | cons entry before ih =>
    obtain ⟨k, node⟩ := entry
    simp only [List.map_cons, List.mem_cons, not_or] at h
    rw [alter, if_neg (by simpa using Ne.symm h.1), ih h.2, Option.map_map]
    rfl

theorem alter_last (h : key ∉ before.map Prod.fst) (node : Node) :
    alter key f (before ++ [(key, node)]) =
      (f (some node)).map fun node => before ++ [(key, node)] := by
  induction before with
  | nil =>
    rw [List.nil_append, alter, if_pos (beq_self_eq_true key)]
    rfl
  | cons entry before ih =>
    obtain ⟨k, other⟩ := entry
    simp only [List.map_cons, List.mem_cons, not_or] at h
    rw [List.cons_append, alter, if_neg (by simpa using Ne.symm h.1), ih h.2, Option.map_map]
    rfl

/-- What is done at the end of the path is done to the innermost table. -/
theorem within_nest {outer : List (Entries × String)} (h : Fresh outer)
    (f : Entries → Option Entries) (inner : Entries) :
    within f (names outer) (nest outer inner) = (f inner).map (nest outer) := by
  induction outer with
  | nil =>
    change f inner = (f inner).map id
    rw [Option.map_id, id]
  | cons level outer ih =>
    obtain ⟨before, key⟩ := level
    have hnew := h (before, key) List.mem_cons_self
    have hlater := ih fun level hlevel => h level (List.mem_cons_of_mem _ hlevel)
    change alter key _ (before ++ [(key, .table .header (nest outer inner))]) = _
    rw [alter_last hnew]
    dsimp only
    rw [← names, hlater, Option.map_map, Option.map_map]
    rfl

/-- A value under a new key goes to the end of a table. -/
theorem define_new (h : key ∉ before.map Prod.fst) (d : Datum) :
    define d key [] before = some (before ++ [(key, .leaf d)]) := by
  rw [define, alter_new h]
  rfl

end Entries

theorem nest_concat (outer : List (Entries × String)) (before : Entries) (key : String)
    (inner : Entries) :
    nest (outer ++ [(before, key)]) inner =
      nest outer (before ++ [(key, .table .header inner)]) := by
  induction outer with
  | nil => rfl
  | cons level outer ih =>
    obtain ⟨around, other⟩ := level
    rw [List.cons_append, nest, ih, nest]

theorem Fresh.concat {outer : List (Entries × String)} (h : Fresh outer) {before : Entries}
    {key : String} (hkey : key ∉ before.map Prod.fst) : Fresh (outer ++ [(before, key)]) := by
  intro level hlevel
  rcases List.mem_append.mp hlevel with hmem | hmem
  · exact h level hmem
  · rw [List.mem_singleton.mp hmem]
    exact hkey

/-- The header of a new table opens it inside the innermost one. -/
theorem openTable_nest {outer : List (Entries × String)} (h : Fresh outer) {before : Entries}
    {key : String} (hkey : key ∉ before.map Prod.fst) :
    Entries.openTable key (names outer) (nest outer before) =
      some (nest (outer ++ [(before, key)]) []) := by
  rw [Entries.openTable, Entries.within_nest h, Entries.alter_new hkey, nest_concat]
  rfl

/-! ### What a document holds -/

mutual

/-- Data that a document tells by lines and tables: values of one line, and tables of these within
each other, at most `depth` of them, with no key twice in a table. -/
def IsTabular (depth : Nat) : Datum → Prop
  | .record entries => 0 < depth ∧ (entries.map Prod.fst).Nodup ∧ AllTabular (depth - 1) entries
  | d => IsScalar d

/-- Data that a table may hold. -/
def AllTabular (depth : Nat) : List (String × Datum) → Prop
  | [] => True
  | (_, d) :: entries => IsTabular depth d ∧ AllTabular depth entries

end

/-- The entry for a value, if it has a line of its own. -/
def leafUnder (name : String) : Datum → Entries
  | .record _ => []
  | d => [(name, .leaf d)]

/-- The entries for those values of a record that have lines of their own. -/
def leaves (entries : List (String × Datum)) : Entries :=
  entries.flatMap fun entry => leafUnder entry.1 entry.2

mutual

/-- The entries for the tables of a record, each with its values first. -/
def tables : List (String × Datum) → Entries
  | [] => []
  | (name, d) :: entries => tableUnder name d ++ tables entries

def tableUnder (name : String) : Datum → Entries
  | .record entries => [(name, .table .header (leaves entries ++ tables entries))]
  | _ => []

end

/-- The values and the tables of a record are all of its entries. -/
theorem perm_leaves_tables (entries : List (String × Datum)) :
    ((leaves entries ++ tables entries).map Prod.fst).Perm (entries.map Prod.fst) := by
  induction entries with
  | nil => exact List.Perm.refl _
  | cons entry entries ih =>
    obtain ⟨name, d⟩ := entry
    cases d with
    | record inner =>
      refine List.Perm.trans ?_ (ih.cons name)
      rw [leaves, List.flatMap_cons, leafUnder, List.nil_append, ← leaves, tables, tableUnder]
      simp only [List.map_append, List.map_cons, List.cons_append, List.nil_append]
      exact List.perm_middle
    | _ => exact ih.cons name

/-! ### Reading on -/

/-- Reading the text leads from one state of a document to another, whatever follows. -/
def Leads (doc : Document) (s : List Char) (doc' : Document) : Prop :=
  ∃ count ≤ s.length, ∀ budget rest,
    doc.lines? (budget + count) (s ++ rest) = doc'.lines? budget rest

theorem Leads.refl (doc : Document) : Leads doc [] doc :=
  ⟨0, Nat.le_refl 0, fun _ _ => rfl⟩

theorem Leads.trans {doc doc' doc'' : Document} {s t : List Char} (h : Leads doc s doc')
    (h' : Leads doc' t doc'') : Leads doc (s ++ t) doc'' := by
  obtain ⟨count, hcount, hread⟩ := h
  obtain ⟨count', hcount', hread'⟩ := h'
  refine ⟨count' + count, ?_, fun budget rest => ?_⟩
  · rw [List.length_append]
    omega
  · rw [List.append_assoc, ← Nat.add_assoc, hread, hread']

theorem afterLine?_cons {c : Char} (hc : c ∉ blankMarks) (s : List Char) :
    afterLine? (c :: s) = none := by
  have hblanks : skipBlanks (c :: s) = c :: s := skipBlanks_cons hc s
  simp only [blankMarks, List.mem_cons, List.not_mem_nil, or_false, not_or] at hc
  obtain ⟨-, -, hcomment, hend, hreturn⟩ := hc
  have hend' : afterLineEnd? (c :: s) = none := by
    rw [afterLineEnd?]
    · exact fun _ h => hend (List.cons_eq_cons.mp h).1
    · exact fun _ h => hreturn (List.cons_eq_cons.mp h).1
  unfold afterLine?
  rw [hblanks]
  split
  · rename_i heq
    exact absurd (List.cons_eq_cons.mp heq).1 hcomment
  · exact hend'

/-- A line that is read is one step, if it starts as an entry or a header does. -/
theorem lines?_line {doc doc' : Document} {c : Char} (hc : c ∉ blankMarks) {s rest : List Char}
    (h : doc.line? (c :: s) = some (doc', '\n' :: rest)) (budget : Nat) :
    doc.lines? (budget + 1) (c :: s) = doc'.lines? budget rest := by
  rw [Document.lines?, afterLine?_cons hc]
  dsimp only
  rw [skipBlanks_cons hc, h]
  rfl

/-- An entry under a new key adds a value to the innermost table. -/
theorem leads_entry {outer : List (Entries × String)} (houter : Fresh outer) {before : Entries}
    {name : String} (hname : name ∉ before.map Prod.fst) {d : Datum} (hd : IsScalar d) :
    Leads ⟨nest outer before, names outer⟩ (key name ++ ' ' :: '=' :: ' ' :: (value d ++ ['\n']))
      ⟨nest outer (before ++ [(name, .leaf d)]), names outer⟩ := by
  refine ⟨1, ?_, fun budget rest => ?_⟩
  · simp only [List.length_append, List.length_cons]
    omega
  have hform : key name ++ ' ' :: '=' :: ' ' :: (value d ++ ['\n']) ++ rest =
      key name ++ ' ' :: '=' :: ' ' :: (value d ++ '\n' :: rest) := by
    simp
  have hline := line?_entry ⟨nest outer before, names outer⟩ name hd rest
  rw [Entries.within_nest houter, Entries.define_new hname, Option.map_some, Option.map_some]
    at hline
  obtain ⟨c, s, hkey, hmark⟩ := head_key name
  rw [hform]
  rw [hkey, List.cons_append] at hline ⊢
  exact lines?_line (not_mem_blankMarks hmark) hline budget

/-- The header of a new table opens it. -/
theorem leads_header {outer : List (Entries × String)} (houter : Fresh outer)
    (hdepth : outer.length < depthLimit) {before : Entries} {name : String}
    (hname : name ∉ before.map Prod.fst) (path : List String) :
    Leads ⟨nest outer before, path⟩
      ('\n' :: '[' :: (dotted (names outer) ++ (key name ++ [']', '\n'])))
      ⟨nest (outer ++ [(before, name)]) [], names (outer ++ [(before, name)])⟩ := by
  refine ⟨2, ?_, fun budget rest => ?_⟩
  · simp only [List.length_cons]
    omega
  have hform : '\n' :: '[' :: (dotted (names outer) ++ (key name ++ [']', '\n'])) ++ rest =
      '\n' :: '[' :: (dotted (names outer) ++ (key name ++ ']' :: '\n' :: rest)) := by
    simp
  have hlength : (names outer).length < depthLimit := by
    rwa [names, List.length_map]
  have hline := line?_header ⟨nest outer before, path⟩ hlength name ('\n' :: rest)
  rw [openTable_nest houter hname, Option.map_some] at hline
  have hnames : names outer ++ [name] = names (outer ++ [(before, name)]) := by
    rw [names, names, List.map_append, List.map_cons, List.map_nil]
  rw [hform, Document.lines?]
  change Document.lines? _ (budget + 1) _ = _
  rw [← hnames]
  exact lines?_line (by decide) hline budget

theorem valueLines_scalar {d : Datum} (hd : IsScalar d) (name : String)
    (entries : List (String × Datum)) : valueLines ((name, d) :: entries) =
      key name ++ ' ' :: '=' :: ' ' :: (value d ++ ['\n']) ++ valueLines entries := by
  have hform : valueLines ((name, d) :: entries) =
      key name ++ ' ' :: '=' :: ' ' :: value d ++ '\n' :: valueLines entries := by
    cases d <;> first | rfl | cases hd
  rw [hform]
  simp

theorem leafUnder_scalar {d : Datum} (hd : IsScalar d) (name : String) :
    leafUnder name d = [(name, .leaf d)] := by
  cases d <;> first | rfl | cases hd

/-- What a document tells is told on one line or is a table. -/
theorem IsTabular.isScalar_or {depth : Nat} {d : Datum} (h : IsTabular depth d) :
    IsScalar d ∨ ∃ entries, d = .record entries := by
  cases d with
  | record entries => exact Or.inr ⟨entries, rfl⟩
  | _ => exact Or.inl h

/-- The lines of the values of a record add these to the innermost table. -/
theorem leads_valueLines {entries : List (String × Datum)} {outer : List (Entries × String)}
    (houter : Fresh outer) {depth : Nat} (hentries : AllTabular depth entries) {before : Entries}
    (hkeys : ((before ++ leaves entries).map Prod.fst).Nodup) :
    Leads ⟨nest outer before, names outer⟩ (valueLines entries)
      ⟨nest outer (before ++ leaves entries), names outer⟩ := by
  induction entries generalizing before with
  | nil =>
    rw [leaves, List.flatMap_nil, List.append_nil]
    exact Leads.refl _
  | cons entry entries ih =>
    obtain ⟨name, d⟩ := entry
    obtain ⟨hd, hentries⟩ := hentries
    rcases hd.isScalar_or with hscalar | ⟨inner, rfl⟩
    · have hsplit : before ++ leaves ((name, d) :: entries) =
          before ++ [(name, .leaf d)] ++ leaves entries := by
        rw [leaves, List.flatMap_cons, leafUnder_scalar hscalar, ← leaves, List.append_assoc]
      rw [hsplit] at hkeys ⊢
      have hname : name ∉ before.map Prod.fst := by
        rw [List.append_assoc, List.map_append] at hkeys
        intro hmem
        exact List.disjoint_of_nodup_append hkeys hmem List.mem_cons_self
      rw [valueLines_scalar hscalar]
      exact (leads_entry houter hname hscalar).trans (ih hentries hkeys)
    · exact ih hentries hkeys

mutual

/-- The lines of the tables of a record add these to the innermost table. -/
theorem leads_tableLines : ∀ (entries : List (String × Datum)) {outer : List (Entries × String)}
    {depth : Nat} {before : Entries} (path : List String), Fresh outer →
    outer.length + depth ≤ depthLimit → AllTabular depth entries →
    ((before ++ tables entries).map Prod.fst).Nodup →
    ∃ path', Leads ⟨nest outer before, path⟩ (tableLines (dotted (names outer)) entries)
      ⟨nest outer (before ++ tables entries), path'⟩
  | [], outer, depth, before, path, _, _, _, _ => by
    refine ⟨path, ?_⟩
    rw [tables, List.append_nil]
    exact Leads.refl _
  | (name, d) :: entries, outer, depth, before, path, houter, hdepth, hentries, hkeys => by
    rw [tables, ← List.append_assoc] at hkeys ⊢
    have hfirst : ((before ++ tableUnder name d).map Prod.fst).Nodup := by
      rw [List.map_append] at hkeys
      exact hkeys.of_append_left
    obtain ⟨path', hd⟩ := leads_tableAt d name path houter hdepth hentries.1 hfirst
    obtain ⟨path'', hlater⟩ := leads_tableLines entries path' houter hdepth hentries.2 hkeys
    exact ⟨path'', hd.trans hlater⟩

/-- The lines of a table add it to the innermost one. -/
theorem leads_tableAt : ∀ (d : Datum) {outer : List (Entries × String)} {depth : Nat}
    {before : Entries} (name : String) (path : List String), Fresh outer →
    outer.length + depth ≤ depthLimit → IsTabular depth d →
    ((before ++ tableUnder name d).map Prod.fst).Nodup →
    ∃ path', Leads ⟨nest outer before, path⟩ (tableAt (dotted (names outer) ++ key name) d)
      ⟨nest outer (before ++ tableUnder name d), path'⟩
  | .record entries, outer, depth, before, name, path, houter, hdepth, hd, hkeys => by
    obtain ⟨hpos, hnodup, hall⟩ := hd
    have hname : name ∉ before.map Prod.fst := by
      rw [List.map_append] at hkeys
      exact fun hmem => List.disjoint_of_nodup_append hkeys hmem List.mem_cons_self
    have hinner : ((leaves entries ++ tables entries).map Prod.fst).Nodup :=
      (perm_leaves_tables entries).nodup_iff.mpr hnodup
    have hvalues : ((leaves entries).map Prod.fst).Nodup := by
      rw [List.map_append] at hinner
      exact hinner.of_append_left
    have houter' := houter.concat hname
    have hlength : (outer ++ [(before, name)]).length + (depth - 1) ≤ depthLimit := by
      rw [List.length_append, List.length_singleton]
      omega
    have hdotted : dotted (names (outer ++ [(before, name)])) =
        dotted (names outer) ++ key name ++ ['.'] := by
      simp [dotted, names]
    have hform : tableAt (dotted (names outer) ++ key name) (.record entries) =
        '\n' :: '[' :: (dotted (names outer) ++ (key name ++ [']', '\n'])) ++
          (valueLines entries ++ tableLines (dotted (names (outer ++ [(before, name)]))) entries) := by
      rw [tableAt, hdotted]
      simp
    have hopen := leads_header houter (by omega) hname path
    have hlines : Leads ⟨nest (outer ++ [(before, name)]) [], _⟩ (valueLines entries)
        ⟨nest (outer ++ [(before, name)]) (leaves entries), _⟩ :=
      leads_valueLines houter' hall hvalues
    obtain ⟨path', htables⟩ := leads_tableLines entries (names (outer ++ [(before, name)])) houter'
      hlength hall hinner
    refine ⟨path', ?_⟩
    rw [hform, tableUnder, ← nest_concat]
    exact hopen.trans (hlines.trans htables)
  | .null, outer, _, before, _, path, _, _, _, _
  | .flag _, outer, _, before, _, path, _, _, _, _
  | .whole _, outer, _, before, _, path, _, _, _, _
  | .real _, outer, _, before, _, path, _, _, _, _
  | .text _, outer, _, before, _, path, _, _, _, _
  | .list _ _, outer, _, before, _, path, _, _, _, _
  | .unusable, outer, _, before, _, path, _, _, _, _ => by
    change ∃ path', Leads _ [] ⟨nest outer (before ++ []), path'⟩
    rw [List.append_nil]
    exact ⟨path, Leads.refl _⟩

end

/-! ### Whole documents -/

theorem head_tableLines (path : List Char) (entries : List (String × Datum)) :
    ∀ c ∈ (tableLines path entries).head?, c = '\n' := by
  induction entries with
  | nil => nofun
  | cons entry entries ih =>
    obtain ⟨name, d⟩ := entry
    rw [tableLines]
    cases d with
    | record inner =>
      rintro c ⟨⟩
      rfl
    | _ => exact ih

theorem head_valueLines {depth : Nat} {entries : List (String × Datum)}
    (h : AllTabular depth entries) : ∀ c ∈ (valueLines entries).head?, c ≠ '\ufeff' := by
  induction entries with
  | nil => nofun
  | cons entry entries ih =>
    obtain ⟨name, d⟩ := entry
    rcases h.1.isScalar_or with hscalar | ⟨inner, rfl⟩
    · obtain ⟨c, s, hkey, hmark⟩ := head_key name
      rw [valueLines_scalar hscalar, hkey]
      rintro d ⟨⟩ rfl
      exact hmark (by decide)
    · exact ih h.2

/-- Without a byte order mark all of a text is read as lines. -/
theorem parse?_of_head {s : String} (h : ∀ c ∈ s.toList.head?, c ≠ '\ufeff') :
    parse? s = (Document.lines? ⟨[], []⟩ (s.toList.length + 1) s.toList).map fun doc =>
      .record (Entries.data doc.root) := by
  unfold parse?
  split
  · rename_i heq
    rw [heq] at h
    exact absurd rfl (h _ rfl)
  · rfl

/-- A document is read as what it was written from, with the values of each record first. -/
theorem parse?_document {entries : List (String × Datum)}
    (h : IsTabular (depthLimit + 1) (.record entries)) :
    parse? (document (.record entries)) =
      some (.record (Entries.data (leaves entries ++ tables entries))) := by
  obtain ⟨-, hnodup, hall⟩ := h
  have hkeys : ((leaves entries ++ tables entries).map Prod.fst).Nodup :=
    (perm_leaves_tables entries).nodup_iff.mpr hnodup
  have hvalues : (([] ++ leaves entries).map Prod.fst).Nodup := by
    rw [List.map_append] at hkeys
    exact hkeys.of_append_left
  have hfresh : Fresh [] := nofun
  obtain ⟨path, htables⟩ := leads_tableLines entries [] hfresh (Nat.le_of_eq (Nat.zero_add _)) hall
    hkeys
  obtain ⟨count, hcount, hread⟩ := (leads_valueLines hfresh hall hvalues).trans htables
  have hmark : ∀ c ∈ (valueLines entries ++ tableLines [] entries).head?, c ≠ '\ufeff' := by
    cases hs : valueLines entries with
    | nil =>
      rintro c hc rfl
      exact absurd (head_tableLines [] entries _ hc) (by decide)
    | cons c s =>
      have hhead := head_valueLines hall
      rw [hs] at hhead
      exact hhead
  have htext : (document (.record entries)).toList = valueLines entries ++ tableLines [] entries :=
    String.toList_ofList
  change count ≤ (valueLines entries ++ tableLines [] entries).length at hcount
  change ∀ budget rest, Document.lines? ⟨[], []⟩ (budget + count)
    (valueLines entries ++ tableLines [] entries ++ rest) =
      Document.lines? ⟨leaves entries ++ tables entries, path⟩ budget rest at hread
  generalize valueLines entries ++ tableLines [] entries = s at hmark htext hcount hread
  have hlines : Document.lines? ⟨[], []⟩ (s.length + 1) s =
      some ⟨leaves entries ++ tables entries, path⟩ := by
    have hbudget : s.length + 1 = s.length - count + 1 + count := by omega
    have hend := hread (s.length - count + 1) []
    rw [List.append_nil, ← hbudget] at hend
    rw [hend]
    rfl
  rw [parse?_of_head (htext ▸ hmark), htext, hlines, Option.map_some]

/-- What is written as a document is read again with its values first and its tables after them. -/
theorem read?_write {α : Type} [Storable α] {a : α} {entries : List (String × Datum)}
    (ha : encode a = .record entries) (h : IsTabular (depthLimit + 1) (encode a)) :
    (read? (write a) : Option α) =
      decode (.record (Entries.data (leaves entries ++ tables entries))) := by
  rw [ha] at h
  rw [read?, write, ha, parse?_document h, Option.bind_some]

end Milling.Toml
