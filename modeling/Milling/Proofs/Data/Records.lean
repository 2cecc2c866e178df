import Milling.Preferences.Basic
import Milling.Proofs.Data.Stable
/-!
The JSON form of every record is stable.

Each record is given by the readers of its fields in the order in which they are read. Preferences
and their parts have defaults for missing fields, and these are faithful too.
-/

namespace Milling

open Datum (required withDefault orNull)

/-! ### Geometry -/

instance : Stable Point :=
  .ofReaders ["x", "y", "z"] (fun p => [encode p.x, encode p.y, encode p.z])
    (keeps_required.and <| keeps_required.and <| keeps_required.and .done)
    Point.mk fun _ => rfl

instance : Stable Box :=
  .ofReaders ["min", "max"] (fun b => [encode b.min, encode b.max])
    (keeps_required.and <| keeps_required.and .done)
    Box.mk fun _ => rfl

instance : Stable Stock :=
  .ofReaders ["width", "depth", "height", "center"]
    (fun s => [encode s.width, encode s.depth, encode s.height, encode s.center])
    (keeps_required.and <| keeps_required.and <| keeps_required.and <| keeps_required.and .done)
    Stock.mk fun _ => rfl

instance : Stable DepthWindow :=
  .ofReaders ["min", "max"] (fun w => [encode w.min, encode w.max])
    (keeps_required.and <| keeps_required.and .done)
    DepthWindow.mk fun _ => rfl

instance : Stable Rgb :=
  .ofReaders ["r", "g", "b"] (fun c => [encode c.r, encode c.g, encode c.b])
    (keeps_required.and <| keeps_required.and <| keeps_required.and .done)
    Rgb.mk fun _ => rfl

/-! ### Programs and playback -/

/-- Numbers and texts that may be missing. -/
theorem keeps_number : Keeps (orNull : Option Datum → Option (Option Float)) :=
  keeps_orNull nofun

theorem keeps_text : Keeps (orNull : Option Datum → Option (Option String)) :=
  keeps_orNull nofun

instance : Stable Command :=
  .ofReaders Command.keys
    (fun c => [encode c.line, encode c.text, encode c.motion, encode c.g, encode c.x, encode c.y,
      encode c.z, encode c.feed, encode c.i, encode c.j, encode c.k, encode c.comment])
    (keeps_required.and <| keeps_required.and <| keeps_required.and <| keeps_codeField.and <|
      keeps_number.and <| keeps_number.and <| keeps_number.and <| keeps_number.and <|
      keeps_number.and <| keeps_number.and <| keeps_number.and <| keeps_text.and .done)
    Command.mk fun _ => rfl

instance : Stable ToolPoint :=
  .ofReaders ["position", "move_class", "source_line"]
    (fun p => [encode p.position, encode p.kind, encode p.line])
    (keeps_required.and <| keeps_required.and <| keeps_required.and .done)
    ToolPoint.mk fun _ => rfl

instance : Stable Program :=
  .ofReaders ["commands", "toolpath", "bounds"]
    (fun p => [encode p.commands, encode p.toolpath, encode p.bounds])
    (keeps_required.and <| keeps_required.and <| keeps_required.and .done)
    Program.mk fun _ => rfl

instance : Stable Playback :=
  .ofReaders ["current_index", "progress", "is_playing", "speed"]
    (fun s => [encode s.index, encode s.progress, encode s.playing, encode s.speed])
    (keeps_required.and <| keeps_required.and <| keeps_required.and <| keeps_required.and .done)
    Playback.mk fun _ => rfl

instance : Stable Totals :=
  .ofReaders Totals.keys
    (fun t => [encode t.distance, encode t.rapidDistance, encode t.cuttingDistance,
      encode t.seconds, encode t.rapidMoves, encode t.cuttingMoves, encode t.arcMoves])
    (keeps_required.and <| keeps_required.and <| keeps_required.and <| keeps_required.and <|
      keeps_required.and <| keeps_required.and <| keeps_required.and .done)
    Totals.mk fun _ => rfl

instance : Stable Progress :=
  .ofReaders ["completed", "remaining_cutting", "remaining_rapid"]
    (fun p => [encode p.completed, encode p.cutting, encode p.rapid])
    (keeps_required.and <| keeps_required.and <| keeps_required.and .done)
    Progress.mk fun _ => rfl

instance : Stable Status :=
  .ofReaders Status.keys
    (fun s => [encode s.position, encode s.kind, encode s.line, encode s.text, encode s.index,
      encode s.total])
    (keeps_required.and <| keeps_required.and <| keeps_required.and <| keeps_text.and <|
      keeps_required.and <| keeps_required.and .done)
    Status.mk fun _ => rfl

/-! ### Reports -/

instance : Stable Lint.Issue :=
  .ofReaders ["line", "severity", "message", "code"]
    (fun i => [encode i.line, encode i.severity, encode i.message, encode i.code])
    (keeps_required.and <| keeps_required.and <| keeps_required.and <| keeps_required.and .done)
    Lint.Issue.mk fun _ => rfl

instance : Stable Lint.Report :=
  .ofReaders ["issues", "error_count", "warning_count"]
    (fun r => [encode r.issues, encode r.errors, encode r.warnings])
    (keeps_required.and <| keeps_required.and <| keeps_required.and .done)
    Lint.Report.mk fun _ => rfl

/-! ### Preferences -/

section

open Datum (plain_real_iff plain_record_iff)

/-- A point is written as a plain tree if it is finite, and so are the preferences and their other
parts. -/
theorem plain_point_iff {p : Point} : (encode p).Plain ↔ p.isFinite = true := by
  change (Datum.record [("x", .real p.x), ("y", .real p.y), ("z", .real p.z)]).Plain ↔ _
  simp [plain_record_iff, plain_real_iff, Point.isFinite, and_assoc]

theorem plain_window_iff {w : DepthWindow} : (encode w).Plain ↔ w.isFinite = true := by
  change (Datum.record [("min", .real w.min), ("max", .real w.max)]).Plain ↔ _
  simp [plain_record_iff, plain_real_iff, DepthWindow.isFinite]

theorem plain_visibility (v : Visibility) : (encode v).Plain := by
  refine .record fun entry hentry => ?_
  obtain ⟨element, -, rfl⟩ := List.mem_map.mp hentry
  exact .flag _

theorem plain_workpiece_iff {w : Workpiece} : (encode w).Plain ↔ w.isFinite = true := by
  change (Datum.record [("manual_mode", .flag w.manual), ("material", .text w.material),
    ("dimensions", encode w.dimensions), ("origin", encode w.origin)]).Plain ↔ _
  simp [plain_record_iff, plain_point_iff, Datum.Plain.flag, Datum.Plain.text, Workpiece.isFinite]

theorem plain_preferences_iff {p : Preferences} : (encode p).Plain ↔ p.isFinite = true := by
  change (Datum.record [("gcode_text", .text p.program), ("file_name", .text p.fileName),
    ("playback_speed", .real p.speed), ("camera_preset", .text p.camera),
    ("tool_diameter", .real p.toolDiameter), ("depth_color_enabled", .flag p.depthColours),
    ("visibility", encode p.visibility), ("workpiece", encode p.workpiece),
    ("depth_filter", encode p.depthWindow)]).Plain ↔ _
  simp [plain_record_iff, plain_real_iff, plain_visibility, plain_workpiece_iff, plain_window_iff,
    Datum.Plain.flag, Datum.Plain.text, Preferences.isFinite, and_assoc]

end

/-- Flags and texts keep their values whatever their defaults are. -/
theorem keeps_flag (default : Bool) : Keeps (withDefault default) :=
  keeps_withDefault ⟨.flag default, rfl⟩

theorem keeps_name (default : String) : Keeps (withDefault default) :=
  keeps_withDefault ⟨.text default, rfl⟩

instance : Stable Visibility :=
  let initial := Visibility.initial
  .ofReaders (Element.all.map Element.name)
    (fun v => [encode v.grid, encode v.axes, encode v.rapidMoves, encode v.cuttingWidth,
      encode v.workpiece, encode v.toolPointer])
    ((keeps_flag initial.grid).and <| (keeps_flag initial.axes).and <|
      (keeps_flag initial.rapidMoves).and <| (keeps_flag initial.cuttingWidth).and <|
      (keeps_flag initial.workpiece).and <| (keeps_flag initial.toolPointer).and .done)
    Visibility.mk fun _ => rfl

instance : Stable Workpiece :=
  let initial := Workpiece.initial
  have hdimensions : Faithful initial.dimensions :=
    ⟨plain_point_iff.mpr (by decide +kernel), rfl⟩
  have horigin : Faithful initial.origin := ⟨plain_point_iff.mpr (by decide +kernel), rfl⟩
  .ofReaders Workpiece.keys
    (fun w => [encode w.manual, encode w.material, encode w.dimensions, encode w.origin])
    ((keeps_flag initial.manual).and <| (keeps_name initial.material).and <|
      (keeps_withDefault hdimensions).and <| (keeps_withDefault horigin).and .done)
    Workpiece.mk fun _ => rfl

/-- Sections that have defaults throughout are what a record without entries gives. -/
theorem faithful_visibility : Faithful Preferences.initial.visibility :=
  Stable.faithful (d := .record []) (.record nofun) rfl

theorem faithful_workpiece : Faithful Preferences.initial.workpiece :=
  Stable.faithful (d := .record []) (.record nofun) rfl

instance : Stable Preferences :=
  let initial := Preferences.initial
  have hspeed : Faithful initial.speed := ⟨.real (by decide +kernel), rfl⟩
  have hdiameter : Faithful initial.toolDiameter := ⟨.real (by decide +kernel), rfl⟩
  have hwindow : Faithful initial.depthWindow := ⟨plain_window_iff.mpr (by decide +kernel), rfl⟩
  .ofReaders Preferences.keys
    (fun p => [encode p.program, encode p.fileName, encode p.speed, encode p.camera,
      encode p.toolDiameter, encode p.depthColours, encode p.visibility, encode p.workpiece,
      encode p.depthWindow])
    ((keeps_name initial.program).and <| (keeps_name initial.fileName).and <|
      (keeps_withDefault hspeed).and <| (keeps_name initial.camera).and <|
      (keeps_withDefault hdiameter).and <| (keeps_flag initial.depthColours).and <|
      (keeps_withDefault faithful_visibility).and <|
      (keeps_withDefault faithful_workpiece).and <| (keeps_withDefault hwindow).and .done)
    Preferences.mk fun _ => rfl

/-! ### All records -/

/-- However a value of the type is written in JSON, the text that is written for what is read is
read as the same value, and writing that again gives the same text. The doubles that occur in the
value are taken to survive on their own. -/
def Json.Rewrites (α : Type) [Storable α] : Prop :=
  ∀ (s : String) (a : α), read? s = some a →
    (∀ x ∈ (encode a).numbers, read? (write x) = some x) →
    read? (write a) = some a ∧ (read? (write a) : Option α).map write = some (write a)

/-- Every stable type is rewritten as the same text. -/
theorem Json.rewrites_of_stable {α : Type} [Storable α] [Stable α] : Rewrites α := by
  intro s a h hnumbers
  have hagain := read?_write_of_read? h hnumbers
  exact ⟨hagain, congrArg (Option.map write) hagain⟩

/-- Every record that is stored or shown is stable under reading and writing. -/
theorem Json.rewrites_records :
    Rewrites Command ∧ Rewrites ToolPoint ∧ Rewrites Box ∧ Rewrites Program ∧ Rewrites Playback ∧
      Rewrites Totals ∧ Rewrites Lint.Report ∧ Rewrites Status ∧ Rewrites Progress ∧
      Rewrites Stock ∧ Rewrites DepthWindow ∧ Rewrites Rgb ∧ Rewrites Visibility ∧
      Rewrites Workpiece ∧ Rewrites Preferences :=
  ⟨rewrites_of_stable, rewrites_of_stable, rewrites_of_stable, rewrites_of_stable,
    rewrites_of_stable, rewrites_of_stable, rewrites_of_stable, rewrites_of_stable,
    rewrites_of_stable, rewrites_of_stable, rewrites_of_stable, rewrites_of_stable,
    rewrites_of_stable, rewrites_of_stable, rewrites_of_stable⟩

/-- A state of playback by its fields in their order, with integers for its doubles. -/
theorem Json.rewrites_records_positional :
    let s : Playback := ⟨7, 0.0, true, 2.0⟩
    (read? "[7, 0, true, 2]" = some s ∧ ∀ x ∈ (encode s).numbers, read? (write x) = some x) ∧
      read? (write s) = some s ∧ (read? (write s) : Option Playback).map write = some (write s) := by
  intro s
  have hread : read? "[7, 0, true, 2]" = some s := by decide +kernel
  have hnumbers : ∀ x ∈ (encode s).numbers, read? (write x) = some x := by decide +kernel
  obtain ⟨-, -, -, -, hplayback, -⟩ := rewrites_records
  exact ⟨⟨hread, hnumbers⟩, hplayback _ s hread hnumbers⟩

end Milling
