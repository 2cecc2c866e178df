import Milling.Proofs.Preferences.Stored
/-!
Preferences of which only a part is stored.

A stored record may leave out fields, hold them in any order and have other keys besides
(`Datum.Arranged`). What is left out takes its default from the section that it belongs to, and
everything else is as it was stored (`Preferences.read?_of_arranged`).
-/

namespace Milling

open Json

namespace Datum

/-! ### Records in any order -/

/-- The record holds the values whose names are kept, in any order, and besides keys that are none
of the names. -/
def Arranged (names : List String) (kept : String → Bool) (values : List Datum) (d : Datum) :
    Prop :=
  ∃ entries unknown, d = .record entries ∧
    entries.Perm ((names.zip values).filter (kept ·.1) ++ unknown) ∧ ∀ e ∈ unknown, e.1 ∉ names

def ifKept (kept : String → Bool) (name : String) (value : Datum) : Option Datum :=
  if kept name then some value else none

theorem lookup_eq_head?_filter (entries : List (String × Datum)) (key : String) :
    entries.lookup key = ((entries.filter (·.1 == key)).head?).map (·.2) := by
  induction entries with
  | nil => rfl
  | cons e rest ih =>
    by_cases hkey : e.1 = key
    · rw [List.filter_cons_of_pos (by simpa using hkey), ← hkey, List.lookup_cons_self]
      rfl
    · have hne : (key == e.1) = false := beq_eq_false_iff_ne.mpr (Ne.symm hkey)
      rw [List.filter_cons_of_neg (by simpa using hkey), List.lookup_cons, hne, ih]

/-- Of the entries with kept names, those are found that were there. -/
theorem lookup_filter_kept (entries : List (String × Datum)) (kept : String → Bool) (key : String) :
    (entries.filter (kept ·.1)).lookup key = if kept key then entries.lookup key else none := by
  induction entries with
  | nil => simp
  | cons e rest ih =>
    by_cases hkey : key = e.1
    · subst hkey
      cases hkept : kept e.1
      · rw [List.filter_cons_of_neg (by simp [hkept]), ih, hkept]
        rfl
      · rw [List.filter_cons_of_pos (by simpa using hkept), List.lookup_cons_self, List.lookup_cons_self]
        rfl
    · have hne : (key == e.1) = false := beq_eq_false_iff_ne.mpr hkey
      rw [List.lookup_cons, hne, ← ih]
      cases hkept : kept e.1
      · rw [List.filter_cons_of_neg (by simp [hkept])]
      · rw [List.filter_cons_of_pos (by simpa using hkept), List.lookup_cons, hne]

/-- Where a key occurs at most once, the order of the entries does not matter. -/
theorem filter_eq_of_perm {entries entries' : List (String × Datum)} (h : entries.Perm entries')
    {key : String} (honce : (entries'.filter (·.1 == key)).length ≤ 1) :
    entries.filter (·.1 == key) = entries'.filter (·.1 == key) := by
  have hfilter := h.filter (·.1 == key)
  generalize entries'.filter (·.1 == key) = found at honce hfilter
  match found, honce with
  | [], _ => exact List.perm_nil.mp hfilter
  | [_], _ => exact List.perm_singleton.mp hfilter

theorem map_kept_eq_zipWith {names : List String} {values : List Datum}
    {find : String → Option Datum} (kept : String → Bool)
    (h : names.map find = values.map some) :
    names.map (fun name => if kept name then find name else none) =
      names.zipWith (ifKept kept) values := by
  induction names generalizing values with
  | nil => rfl
  | cons name names ih =>
    cases values with
    | nil => cases h
    | cons value values =>
      obtain ⟨hfirst, hrest⟩ := List.cons_eq_cons.mp h
      rw [List.map_cons, List.zipWith_cons_cons, ih hrest, hfirst]
      rfl

/-- Such a record gives the values that are kept in the order of the names. -/
theorem Arranged.fields? {names : List String} {kept : String → Bool} {values : List Datum}
    {d : Datum} (h : Arranged names kept values d) (hnames : names.Nodup)
    (hlength : names.length = values.length) (defaulted : Bool) :
    d.fields? names defaulted = some (names.zipWith (ifKept kept) values) := by
  obtain ⟨entries, unknown, rfl, hperm, hunknown⟩ := h
  have hbound : ∀ name, (((names.zip values).filter (kept ·.1)).filter (·.1 == name)).length ≤ 1 :=
    fun name => (List.filter_sublist.filter _).length_le.trans
      (length_filter_zip_le hnames hlength name)
  have hfound : ∀ name ∈ names, entries.filter (·.1 == name) =
      ((names.zip values).filter (kept ·.1)).filter (·.1 == name) := by
    intro name hname
    have hnone : unknown.filter (·.1 == name) = [] := by
      rw [List.filter_eq_nil_iff]
      intro e he hkey
      exact hunknown e he (beq_iff_eq.mp hkey ▸ hname)
    have hboth : ((names.zip values).filter (kept ·.1) ++ unknown).filter (·.1 == name) =
        ((names.zip values).filter (kept ·.1)).filter (·.1 == name) := by
      rw [List.filter_append, hnone, List.append_nil]
    rw [← hboth]
    exact filter_eq_of_perm hperm (hboth ▸ hbound name)
  have honce : (names.all fun name =>
      decide ((entries.filter (·.1 == name)).length ≤ 1)) = true := by
    rw [List.all_eq_true]
    intro name hname
    rw [decide_eq_true_iff, hfound name hname]
    exact hbound name
  have hlookup : names.map (fun name => entries.lookup name) =
      names.map fun name => if kept name then (names.zip values).lookup name else none := by
    refine List.map_congr_left fun name hname => ?_
    rw [lookup_eq_head?_filter, hfound name hname, ← lookup_eq_head?_filter, lookup_filter_kept]
  rw [Datum.fields?, if_pos honce, hlookup, map_kept_eq_zipWith kept (lookup_zip hnames hlength)]

theorem rereadEntries_eq_map (entries : List (String × Datum)) :
    rereadEntries entries = entries.map (Prod.map id Json.reread) := by
  induction entries with
  | nil => rfl
  | cons e rest ih => rw [rereadEntries, ih, List.map_cons, Prod.map_apply, id]

/-- The reader finds what it reads of the values in the same arrangement. -/
theorem Arranged.reread {names : List String} {kept : String → Bool} {values : List Datum}
    {d : Datum} (h : Arranged names kept values d) :
    Arranged names kept (values.map Json.reread) (Json.reread d) := by
  obtain ⟨entries, unknown, rfl, hperm, hunknown⟩ := h
  refine ⟨rereadEntries entries, unknown.map (Prod.map id Json.reread), rfl, ?_, ?_⟩
  · rw [rereadEntries_eq_map, List.zip_map_right, List.filter_map, ← List.map_append]
    exact hperm.map _
  · intro e he
    obtain ⟨e', he', rfl⟩ := List.mem_map.mp he
    exact hunknown e' he'

/-! ### Fields that may be left out -/

variable {α : Type} [Storable α]

/-- A field that is kept has its value, and one that is not its default. -/
theorem withDefault_ifKept {kept : String → Bool} {name : String} {d : Datum} {a : α}
    (h : decode d = some a) (default : α) :
    withDefault default (ifKept kept name d) = some (if kept name then a else default) := by
  rw [ifKept]
  cases kept name
  · rfl
  · exact h

theorem decode_encode_flag (b : Bool) : decode (encode b) = some b := rfl

theorem decode_encode_text (s : String) : decode (encode s) = some s := rfl

theorem decode_encode_number (x : Float) : decode (encode x) = some x := rfl

def complete : String → Bool := fun _ => true

end Datum

/-! ### Points and windows -/

section Parts

open Datum (withDefault ifKept withDefault_ifKept decode_encode_flag decode_encode_text
  decode_encode_number)

variable {d : Datum}

/-- The record has the coordinates of the point, in any order and with other keys besides. -/
def Point.Arranged (p : Point) (d : Datum) : Prop :=
  Datum.Arranged ["x", "y", "z"] Datum.complete [encode p.x, encode p.y, encode p.z] d

/-- The record has the ends of the window, in any order and with other keys besides. -/
def DepthWindow.Arranged (w : DepthWindow) (d : Datum) : Prop :=
  Datum.Arranged ["min", "max"] Datum.complete [encode w.min, encode w.max] d

theorem Point.Arranged.decode_eq {p : Point} (h : p.Arranged d) : decode d = some p := by
  have hfields := Datum.Arranged.fields? h (by decide) rfl false
  change (Datum.fields? ["x", "y", "z"] false d >>= _) = _
  rw [hfields]
  rfl

theorem DepthWindow.Arranged.decode_eq {w : DepthWindow} (h : w.Arranged d) :
    decode d = some w := by
  have hfields := Datum.Arranged.fields? h (by decide) rfl false
  change (Datum.fields? ["min", "max"] false d >>= _) = _
  rw [hfields]
  rfl

/-! ### Sections with defaults -/

def Visibility.Arranged (v : Visibility) (kept : String → Bool) (d : Datum) : Prop :=
  Datum.Arranged (Element.all.map Element.name) kept (Element.all.map fun e => encode (v.shows e)) d

/-- The flags that are kept, and for the others those of the initial view. -/
def Visibility.keeping (v : Visibility) (kept : String → Bool) : Visibility :=
  { grid := if kept "grid" then v.grid else initial.grid
    axes := if kept "axes" then v.axes else initial.axes
    rapidMoves := if kept "rapid_moves" then v.rapidMoves else initial.rapidMoves
    cuttingWidth := if kept "cutting_width" then v.cuttingWidth else initial.cuttingWidth
    workpiece := if kept "workpiece" then v.workpiece else initial.workpiece
    toolPointer := if kept "tool_pointer" then v.toolPointer else initial.toolPointer }

theorem Visibility.Arranged.decode_eq {v : Visibility} {kept : String → Bool}
    (h : v.Arranged kept d) : decode d = some (v.keeping kept) := by
  have hfields := Datum.Arranged.fields? h (by decide) rfl true
  have hparts : decode d =
      (do some ⟨← withDefault initial.grid (ifKept kept "grid" (encode v.grid)),
        ← withDefault initial.axes (ifKept kept "axes" (encode v.axes)),
        ← withDefault initial.rapidMoves (ifKept kept "rapid_moves" (encode v.rapidMoves)),
        ← withDefault initial.cuttingWidth (ifKept kept "cutting_width" (encode v.cuttingWidth)),
        ← withDefault initial.workpiece (ifKept kept "workpiece" (encode v.workpiece)),
        ← withDefault initial.toolPointer (ifKept kept "tool_pointer" (encode v.toolPointer))⟩ :
        Option Visibility) := by
    change (Datum.fields? (Element.all.map Element.name) true d >>= _) = _
    rw [hfields]
    rfl
  rw [hparts]
  simp only [withDefault_ifKept (decode_encode_flag _)]
  rfl

/-- The record has the fields that are kept; the points may be stored in any order too. -/
def Workpiece.Arranged (w : Workpiece) (kept : String → Bool) (d : Datum) : Prop :=
  ∃ dimensions origin, w.dimensions.Arranged dimensions ∧ w.origin.Arranged origin ∧
    Datum.Arranged keys kept [encode w.manual, encode w.material, dimensions, origin] d

/-- The fields that are kept, and for the others those of the initial block. -/
def Workpiece.keeping (w : Workpiece) (kept : String → Bool) : Workpiece :=
  { manual := if kept "manual_mode" then w.manual else initial.manual
    material := if kept "material" then w.material else initial.material
    dimensions := if kept "dimensions" then w.dimensions else initial.dimensions
    origin := if kept "origin" then w.origin else initial.origin }

theorem Workpiece.Arranged.decode_eq {w : Workpiece} {kept : String → Bool}
    (h : w.Arranged kept d) : decode d = some (w.keeping kept) := by
  obtain ⟨dimensions, origin, hdimensions, horigin, h⟩ := h
  have hfields := h.fields? (by decide) rfl true
  have hparts : decode d =
      (do some ⟨← withDefault initial.manual (ifKept kept "manual_mode" (encode w.manual)),
        ← withDefault initial.material (ifKept kept "material" (encode w.material)),
        ← withDefault initial.dimensions (ifKept kept "dimensions" dimensions),
        ← withDefault initial.origin (ifKept kept "origin" origin)⟩ : Option Workpiece) := by
    change (Datum.fields? keys true d >>= _) = _
    rw [hfields]
    rfl
  rw [hparts, withDefault_ifKept (decode_encode_flag _), withDefault_ifKept (decode_encode_text _),
    withDefault_ifKept hdimensions.decode_eq, withDefault_ifKept horigin.decode_eq]
  rfl

/-! ### Preferences -/

namespace Preferences

/-- Which names are kept: of all preferences, and of the sections that have defaults of their
own. -/
structure Selection where
  fields : String → Bool
  visibility : String → Bool
  workpiece : String → Bool

/-- The record has the fields that are kept, and of the sections among them what is kept of each. At
every level the order is free, and there may be other keys. -/
def Arranged (p : Preferences) (kept : Selection) (d : Datum) : Prop :=
  ∃ visibility workpiece window, p.visibility.Arranged kept.visibility visibility ∧
    p.workpiece.Arranged kept.workpiece workpiece ∧ p.depthWindow.Arranged window ∧
    Datum.Arranged keys kept.fields
      [encode p.program, encode p.fileName, encode p.speed, encode p.camera,
        encode p.toolDiameter, encode p.depthColours, visibility, workpiece, window] d

/-- The fields that are kept, with the defaults of each level for the others. -/
def keeping (p : Preferences) (kept : Selection) : Preferences :=
  { program := if kept.fields "gcode_text" then p.program else initial.program
    fileName := if kept.fields "file_name" then p.fileName else initial.fileName
    speed := if kept.fields "playback_speed" then p.speed else initial.speed
    camera := if kept.fields "camera_preset" then p.camera else initial.camera
    toolDiameter := if kept.fields "tool_diameter" then p.toolDiameter else initial.toolDiameter
    depthColours :=
      if kept.fields "depth_color_enabled" then p.depthColours else initial.depthColours
    visibility :=
      if kept.fields "visibility" then p.visibility.keeping kept.visibility else initial.visibility
    workpiece :=
      if kept.fields "workpiece" then p.workpiece.keeping kept.workpiece else initial.workpiece
    depthWindow := if kept.fields "depth_filter" then p.depthWindow else initial.depthWindow }

/-- Preferences are decoded from what is kept of them, with the defaults of each level for the
rest. -/
theorem Arranged.decode_eq {p : Preferences} {kept : Selection} (h : p.Arranged kept d) :
    decode d = some (p.keeping kept) := by
  obtain ⟨visibility, workpiece, window, hvisibility, hworkpiece, hwindow, h⟩ := h
  have hfields := h.fields? (by decide) rfl true
  have hparts : decode d =
      (do some ⟨← withDefault initial.program (ifKept kept.fields "gcode_text" (encode p.program)),
          ← withDefault initial.fileName (ifKept kept.fields "file_name" (encode p.fileName)),
          ← withDefault initial.speed (ifKept kept.fields "playback_speed" (encode p.speed)),
          ← withDefault initial.camera (ifKept kept.fields "camera_preset" (encode p.camera)),
          ← withDefault initial.toolDiameter
            (ifKept kept.fields "tool_diameter" (encode p.toolDiameter)),
          ← withDefault initial.depthColours
            (ifKept kept.fields "depth_color_enabled" (encode p.depthColours)),
          ← withDefault initial.visibility (ifKept kept.fields "visibility" visibility),
          ← withDefault initial.workpiece (ifKept kept.fields "workpiece" workpiece),
          ← withDefault initial.depthWindow (ifKept kept.fields "depth_filter" window)⟩ :
        Option Preferences) := by
    change (Datum.fields? keys true d >>= _) = _
    rw [hfields]
    rfl
  rw [hparts]
  simp only [withDefault_ifKept (decode_encode_text _), withDefault_ifKept (decode_encode_flag _),
    withDefault_ifKept (decode_encode_number _), withDefault_ifKept hvisibility.decode_eq,
    withDefault_ifKept hworkpiece.decode_eq, withDefault_ifKept hwindow.decode_eq]
  rfl

end Preferences

/-! ### Whole records -/

/-- A record that was written is one arrangement of its own fields. -/
theorem Datum.arranged_zip (names : List String) (values : List Datum) :
    Datum.Arranged names Datum.complete values (.record (names.zip values)) := by
  refine ⟨names.zip values, [], rfl, ?_, nofun⟩
  have hall : (names.zip values).filter (fun e => complete e.1) = names.zip values :=
    List.filter_eq_self.mpr fun _ _ => rfl
  rw [List.append_nil, hall]

/-- The record that is stored of preferences has all their fields. -/
theorem Preferences.arranged_encode (p : Preferences) :
    p.Arranged ⟨Datum.complete, Datum.complete, Datum.complete⟩ (encode p) :=
  ⟨encode p.visibility, encode p.workpiece, encode p.depthWindow, Datum.arranged_zip _ _,
    ⟨encode p.workpiece.dimensions, encode p.workpiece.origin, Datum.arranged_zip _ _,
      Datum.arranged_zip _ _, Datum.arranged_zip _ _⟩,
    Datum.arranged_zip _ _, Datum.arranged_zip _ _⟩

/-! ### Texts -/

theorem Json.reread_encode_number {x : Float} (h : x.isFinite = true) :
    reread (encode x) = encode (carried x) :=
  if_pos h

theorem Point.Arranged.reread {p : Point} (h : p.Arranged d) (hp : p.isFinite = true) :
    p.carried.Arranged (Json.reread d) := by
  have harranged := Datum.Arranged.reread h
  simp only [Point.isFinite, Bool.and_eq_true] at hp
  obtain ⟨⟨hx, hy⟩, hz⟩ := hp
  rwa [List.map_cons, List.map_cons, List.map_cons, reread_encode_number hx,
    reread_encode_number hy, reread_encode_number hz] at harranged

theorem DepthWindow.Arranged.reread {w : DepthWindow} (h : w.Arranged d) (hw : w.isFinite = true) :
    w.carried.Arranged (Json.reread d) := by
  have harranged := Datum.Arranged.reread h
  simp only [DepthWindow.isFinite, Bool.and_eq_true] at hw
  rwa [List.map_cons, List.map_cons, reread_encode_number hw.1, reread_encode_number hw.2]
    at harranged

theorem Workpiece.Arranged.reread {w : Workpiece} {kept : String → Bool} (h : w.Arranged kept d)
    (hw : w.isFinite = true) : w.carried.Arranged kept (Json.reread d) := by
  obtain ⟨dimensions, origin, hdimensions, horigin, h⟩ := h
  simp only [Workpiece.isFinite, Bool.and_eq_true] at hw
  exact ⟨_, _, hdimensions.reread hw.1, horigin.reread hw.2, Datum.Arranged.reread h⟩

/-- The way through a text leaves an arrangement one, of the preferences that JSON carries. -/
theorem Preferences.Arranged.reread {p : Preferences} {kept : Selection} (h : p.Arranged kept d)
    (hp : p.isFinite = true) : p.carried.Arranged kept (Json.reread d) := by
  obtain ⟨visibility, workpiece, window, hvisibility, hworkpiece, hwindow, h⟩ := h
  simp only [Preferences.isFinite, Bool.and_eq_true] at hp
  obtain ⟨⟨⟨hspeed, hdiameter⟩, hworkpiece'⟩, hwindow'⟩ := hp
  have harranged := Datum.Arranged.reread h
  simp only [List.map_cons, List.map_nil, reread_encode_number hspeed,
    reread_encode_number hdiameter] at harranged
  exact ⟨_, _, _, Datum.Arranged.reread hvisibility, hworkpiece.reread hworkpiece',
    hwindow.reread hwindow', harranged⟩

end Parts

namespace Preferences

/-- A stored record with any part of the fields is read, and as the preferences with defaults for
the other fields; so is every text of such a record, up to what its numbers lose on the way. -/
theorem read?_of_arranged {p : Preferences} {kept : Selection} {d : Datum}
    (h : p.Arranged kept d) :
    decode d = some (p.keeping kept) ∧
      (p.isFinite = true → ∀ s, Spells s.toList (tokens d) →
        Json.read? s = some (p.carried.keeping kept) ∧
          ((∀ x ∈ p.numbers, Json.read? (Json.write x) = some x) →
            Json.read? s = some (p.keeping kept))) := by
  refine ⟨h.decode_eq, fun hfinite s hs => ?_⟩
  have hread : Json.read? s = some (p.carried.keeping kept) := by
    rw [Json.read?, parse?_of_spells hs]
    exact (h.reread hfinite).decode_eq
  refine ⟨hread, fun hnumbers => ?_⟩
  rw [hread, Preferences.carried_eq fun x hx => Json.carried_of_read? (hnumbers x hx)]

/-- A text with a name and one flag, and a key that means nothing. -/
theorem read?_of_arranged_flag :
    let d : Datum := .record [("theme", .text "dark"),
      ("visibility", .record [("grid", .flag false)]), ("file_name", .text "part.nc")]
    Json.read? (Json.compact d) =
      some { initial with
        fileName := "part.nc"
        visibility := { Visibility.initial with grid := false } } := by
  intro d
  let p : Preferences :=
    { initial with
      fileName := "part.nc"
      visibility := { Visibility.initial with grid := false } }
  let kept : Selection := ⟨(· ∈ ["file_name", "visibility"]), (· == "grid"), Datum.complete⟩
  have harranged : p.Arranged kept d := by
    obtain ⟨visibility, workpiece, window, -, hworkpiece, hwindow, -⟩ := p.arranged_encode
    refine ⟨.record [("grid", .flag false)], workpiece, window, ?_, hworkpiece, hwindow, ?_⟩
    · exact ⟨_, [], rfl, List.Perm.refl _, nofun⟩
    · refine ⟨_, [("theme", .text "dark")], rfl, ?_, by decide⟩
      exact List.reverse_perm [("file_name", Datum.text "part.nc"),
        ("visibility", .record [("grid", .flag false)]), ("theme", .text "dark")]
  have h := (read?_of_arranged harranged).2 (by decide +kernel) _ (spells_compact d)
  exact h.2 (by decide +kernel)

end Preferences

end Milling
