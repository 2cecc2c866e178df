import Milling.Preferences.Visibility
import Milling.Preferences.Workpiece
import Milling.Template.Library
/-!
Preferences: all that is kept of a session.

Each section has defaults, so a stored text may leave out any field. A stored text may also hold
values that cannot be used; `withFallbacks` replaces these by defaults, and `validate` refuses
them.
-/

namespace Milling

/-- The program under work and how it is shown. -/
structure Preferences where
  program : String
  fileName : String
  speed : Float
  camera : String
  toolDiameter : Float
  depthColours : Bool
  visibility : Visibility
  workpiece : Workpiece
  depthWindow : DepthWindow
deriving BEq, Inhabited

namespace Preferences

def sampleFileName : String := "sample.nc"

/-- The sample program at normal speed, with everything shown. -/
def initial : Preferences :=
  { program := Template.sample.text
    fileName := sampleFileName
    speed := 1.0
    camera := "isometric"
    toolDiameter := 3.0
    depthColours := false
    visibility := .initial
    workpiece := .initial
    depthWindow := ⟨-100.0, 10.0⟩ }

/-- The text, or a default for the empty text. -/
def orText (default s : String) : String :=
  if s == "" then default else s

/-- The number, or a default for one that is not finite or not above zero. -/
def orPositive (default x : Float) : Float :=
  if Binary64.isPositive x then x else default

/-- The preferences with defaults for empty texts and for numbers that cannot be used. -/
def withFallbacks (p : Preferences) : Preferences :=
  { p with
    program := orText initial.program p.program
    fileName := orText initial.fileName p.fileName
    speed := orPositive initial.speed p.speed
    camera := orText initial.camera p.camera
    toolDiameter := orPositive initial.toolDiameter p.toolDiameter }

/-- Refuses preferences that cannot be used, for the first reason that applies. -/
def validate (p : Preferences) : Except Fault Unit :=
  let edges := p.workpiece.dimensions
  if !Binary64.isPositive p.toolDiameter then .error (.invalid "tool_diameter" .mustBePositive)
  else if !Binary64.isPositive p.speed then .error (.invalid "playback_speed" .mustBePositive)
  else if edges.x ≤ 0.0 || edges.y ≤ 0.0 || edges.z ≤ 0.0 then
    .error (.invalid "workpiece.dimensions" .dimensionsMustBePositive)
  else if p.depthWindow.min > p.depthWindow.max then
    .error (.invalid "depth_filter" (.windowReversed p.depthWindow.min p.depthWindow.max))
  else .ok ()

def keys : List String :=
  ["gcode_text", "file_name", "playback_speed", "camera_preset", "tool_diameter",
   "depth_color_enabled", "visibility", "workpiece", "depth_filter"]

instance : Storable Preferences where
  encode p :=
    .record [("gcode_text", encode p.program), ("file_name", encode p.fileName),
      ("playback_speed", encode p.speed), ("camera_preset", encode p.camera),
      ("tool_diameter", encode p.toolDiameter), ("depth_color_enabled", encode p.depthColours),
      ("visibility", encode p.visibility), ("workpiece", encode p.workpiece),
      ("depth_filter", encode p.depthWindow)]
  decode d := do
    let [program, fileName, speed, camera, toolDiameter, depthColours, visibility, workpiece,
      depthWindow] ← d.fields? keys true | none
    some
      { program := ← Datum.withDefault initial.program program
        fileName := ← Datum.withDefault initial.fileName fileName
        speed := ← Datum.withDefault initial.speed speed
        camera := ← Datum.withDefault initial.camera camera
        toolDiameter := ← Datum.withDefault initial.toolDiameter toolDiameter
        depthColours := ← Datum.withDefault initial.depthColours depthColours
        visibility := ← Datum.withDefault initial.visibility visibility
        workpiece := ← Datum.withDefault initial.workpiece workpiece
        depthWindow := ← Datum.withDefault initial.depthWindow depthWindow }

end Preferences

end Milling
