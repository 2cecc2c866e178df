import Milling.Preferences.Basic
import Milling.Proofs.Json.Reader
/-!
Preferences as a text of JSON, and what comes back from it.

A number that is not finite is written as null, which is no number, and so the whole text is
refused. All other preferences come back with their numbers as JSON carries them
(`Preferences.read?_write`).
-/

namespace Milling

open Json

namespace Json

/-- What comes back of a value. -/
def returned {α : Type} [Storable α] (a : α) : Option α :=
  decode (reread (encode a))

theorem read?_write {α : Type} [Storable α] (a : α) : (read? (write a) : Option α) = returned a := by
  rw [read?, write, parse?_compact]
  rfl

/-! ### Single values -/

theorem returned_string (s : String) : returned s = some s :=
  rfl

theorem returned_bool (b : Bool) : returned b = some b :=
  rfl

/-- Null stands for a number that is not finite, and is not taken for a number. -/
theorem returned_float (x : Float) : returned x = if x.isFinite then some (carried x) else none := by
  change Datum.float? (if x.isFinite then .real (carried x) else .null) = _
  split <;> rfl

/-- A number that is read as it was written is carried as it is. -/
theorem carried_of_read? {x : Float} (h : read? (write x) = some x) : carried x = x := by
  rw [read?_write, returned_float] at h
  split at h
  · exact Option.some_inj.mp h
  · cases h

end Json

/-! ### Records -/

namespace Datum

/-- In a record every field is found under its own name. -/
theorem lookup_zip {names : List String} {values : List Datum} (hnames : names.Nodup)
    (hlength : names.length = values.length) :
    names.map (fun name => (names.zip values).lookup name) = values.map some := by
  induction names generalizing values with
  | nil =>
    rw [List.eq_nil_of_length_eq_zero hlength.symm]
    rfl
  | cons name names ih =>
    cases values with
    | nil => cases hlength
    | cons value values =>
      obtain ⟨hnew, hnames⟩ := List.nodup_cons.mp hnames
      rw [List.zip_cons_cons, List.map_cons, List.map_cons, List.lookup_cons_self,
        ← ih hnames (Nat.succ.inj hlength)]
      congr 1
      refine List.map_congr_left fun other hother => ?_
      have hne : (other == name) = false :=
        beq_eq_false_iff_ne.mpr fun heq => hnew (heq ▸ hother)
      rw [List.lookup_cons, hne]

theorem length_filter_zip_le {names : List String} {values : List Datum} (hnames : names.Nodup)
    (hlength : names.length = values.length) (name : String) :
    ((names.zip values).filter (·.1 == name)).length ≤ 1 := by
  have hkeys : (names.zip values).map Prod.fst = names :=
    List.map_fst_zip hlength.le
  have hcount : ((names.zip values).filter (·.1 == name)).length = names.count name := by
    rw [← List.countP_eq_length_filter, List.count, ← hkeys, List.countP_map, hkeys]
    rfl
  rw [hcount]
  exact List.nodup_iff_count_le_one.mp hnames name

/-- A record gives its values in the order of the names. -/
theorem fields?_zip {names : List String} (values : List Datum) (hnames : names.Nodup)
    (hlength : names.length = values.length) (defaulted : Bool) :
    (record (names.zip values)).fields? names defaulted = some (values.map some) := by
  have honce : (names.all fun name =>
      decide (((names.zip values).filter (·.1 == name)).length ≤ 1)) = true := by
    rw [List.all_eq_true]
    intro name _
    rw [decide_eq_true_iff]
    exact length_filter_zip_le hnames hlength name
  rw [fields?, if_pos honce, lookup_zip hnames hlength]

end Datum

/-! ### Points, windows and blocks of material -/

def Point.carried (p : Point) : Point :=
  ⟨Json.carried p.x, Json.carried p.y, Json.carried p.z⟩

/-- A point comes back if it is finite. -/
theorem returned_point (p : Point) :
    returned p = if p.isFinite then some p.carried else none := by
  have hfields : Datum.fields? ["x", "y", "z"] false (reread (encode p)) = _ :=
    Datum.fields?_zip [reread (encode p.x), reread (encode p.y), reread (encode p.z)]
      (by decide : ["x", "y", "z"].Nodup) rfl false
  have hparts : returned p =
      (do some ⟨← returned p.x, ← returned p.y, ← returned p.z⟩ : Option Point) := by
    change (Datum.fields? ["x", "y", "z"] false (reread (encode p)) >>= _) = _
    rw [hfields]
    rfl
  rw [hparts, returned_float, returned_float, returned_float, Point.isFinite]
  cases p.x.isFinite <;> cases p.y.isFinite <;> cases p.z.isFinite <;> rfl

namespace DepthWindow

def isFinite (w : DepthWindow) : Bool :=
  w.min.isFinite && w.max.isFinite

def carried (w : DepthWindow) : DepthWindow :=
  ⟨Json.carried w.min, Json.carried w.max⟩

theorem returned_eq (w : DepthWindow) :
    returned w = if w.isFinite then some w.carried else none := by
  have hfields : Datum.fields? ["min", "max"] false (reread (encode w)) = _ :=
    Datum.fields?_zip [reread (encode w.min), reread (encode w.max)]
      (by decide : ["min", "max"].Nodup) rfl false
  have hparts : returned w =
      (do some ⟨← returned w.min, ← returned w.max⟩ : Option DepthWindow) := by
    change (Datum.fields? ["min", "max"] false (reread (encode w)) >>= _) = _
    rw [hfields]
    rfl
  rw [hparts, returned_float, returned_float, isFinite]
  cases w.min.isFinite <;> cases w.max.isFinite <;> rfl

end DepthWindow

namespace Workpiece

def isFinite (w : Workpiece) : Bool :=
  w.dimensions.isFinite && w.origin.isFinite

def carried (w : Workpiece) : Workpiece :=
  { w with dimensions := w.dimensions.carried, origin := w.origin.carried }

theorem returned_eq (w : Workpiece) :
    returned w = if w.isFinite then some w.carried else none := by
  have hfields : Datum.fields? keys true (reread (encode w)) = _ :=
    Datum.fields?_zip [reread (encode w.manual), reread (encode w.material),
      reread (encode w.dimensions), reread (encode w.origin)] (by decide : keys.Nodup) rfl true
  have hparts : returned w =
      (do some ⟨← returned w.manual, ← returned w.material, ← returned w.dimensions,
        ← returned w.origin⟩ : Option Workpiece) := by
    change (Datum.fields? keys true (reread (encode w)) >>= _) = _
    rw [hfields]
    rfl
  rw [hparts, returned_bool, returned_string, returned_point, returned_point, isFinite]
  cases w.dimensions.isFinite <;> cases w.origin.isFinite <;> rfl

end Workpiece

/-- Flags come back as they are. -/
theorem returned_visibility (v : Visibility) : returned v = some v := by
  have hfields : Datum.fields? (Element.all.map Element.name) true (reread (encode v)) = _ :=
    Datum.fields?_zip (Element.all.map fun e => reread (encode (v.shows e)))
      (by decide : (Element.all.map Element.name).Nodup) rfl true
  change (Datum.fields? (Element.all.map Element.name) true (reread (encode v)) >>= _) = _
  rw [hfields]
  rfl

/-! ### Preferences -/

namespace Preferences

def isFinite (p : Preferences) : Bool :=
  p.speed.isFinite && p.toolDiameter.isFinite && p.workpiece.isFinite && p.depthWindow.isFinite

/-- Where the speed and the diameter of the tool are known to be positive, the other numbers are
what counts. -/
theorem isFinite_of_isPositive {p : Preferences} (hspeed : Binary64.isPositive p.speed = true)
    (hdiameter : Binary64.isPositive p.toolDiameter = true) :
    p.isFinite = (p.workpiece.isFinite && p.depthWindow.isFinite) := by
  rw [isFinite, (Bool.and_eq_true_iff.mp hspeed).1, (Bool.and_eq_true_iff.mp hdiameter).1]
  rfl

def carried (p : Preferences) : Preferences :=
  { p with
    speed := Json.carried p.speed
    toolDiameter := Json.carried p.toolDiameter
    workpiece := p.workpiece.carried
    depthWindow := p.depthWindow.carried }

/-- A single number that is not finite makes the whole record unreadable. -/
theorem returned_eq (p : Preferences) :
    returned p = if p.isFinite then some p.carried else none := by
  have hfields : Datum.fields? keys true (reread (encode p)) = _ :=
    Datum.fields?_zip [reread (encode p.program), reread (encode p.fileName),
      reread (encode p.speed), reread (encode p.camera), reread (encode p.toolDiameter),
      reread (encode p.depthColours), reread (encode p.visibility), reread (encode p.workpiece),
      reread (encode p.depthWindow)] (by decide : keys.Nodup) rfl true
  have hparts : returned p =
      (do some ⟨← returned p.program, ← returned p.fileName, ← returned p.speed,
        ← returned p.camera, ← returned p.toolDiameter, ← returned p.depthColours,
        ← returned p.visibility, ← returned p.workpiece, ← returned p.depthWindow⟩ :
        Option Preferences) := by
    change (Datum.fields? keys true (reread (encode p)) >>= _) = _
    rw [hfields]
    rfl
  rw [hparts, returned_string, returned_string, returned_float, returned_string,
    returned_float, returned_bool, returned_visibility, Workpiece.returned_eq,
    DepthWindow.returned_eq, isFinite]
  cases p.speed.isFinite <;> cases p.toolDiameter.isFinite <;> cases p.workpiece.isFinite <;>
    cases p.depthWindow.isFinite <;> rfl

/-- Preferences come back from a text of JSON if they are finite, with the numbers that it
carries. -/
theorem read?_write (p : Preferences) :
    (Json.read? (Json.write p) : Option Preferences) =
      if p.isFinite then some p.carried else none := by
  rw [Json.read?_write, returned_eq]

def numbers (p : Preferences) : List Float :=
  [p.speed, p.toolDiameter, p.workpiece.dimensions.x, p.workpiece.dimensions.y,
    p.workpiece.dimensions.z, p.workpiece.origin.x, p.workpiece.origin.y, p.workpiece.origin.z,
    p.depthWindow.min, p.depthWindow.max]

theorem isFinite_iff (p : Preferences) : p.isFinite = true ↔ ∀ x ∈ p.numbers, x.isFinite = true := by
  simp [isFinite, numbers, Workpiece.isFinite, DepthWindow.isFinite, Point.isFinite, and_assoc]

/-- Preferences come back as they are if each of their numbers does. -/
theorem carried_eq {p : Preferences} (h : ∀ x ∈ p.numbers, Json.carried x = x) : p.carried = p := by
  simp only [numbers, List.forall_mem_cons] at h
  obtain ⟨hspeed, hdiameter, hx, hy, hz, hx', hy', hz', hmin, hmax, -⟩ := h
  unfold carried Workpiece.carried DepthWindow.carried Point.carried
  rw [hspeed, hdiameter, hx, hy, hz, hx', hy', hz', hmin, hmax]

end Preferences

end Milling
