import Milling.Data.Geometry
import Milling.Scene.Status
import Milling.Totals
/-!
The stored forms of commands, toolpaths, programs, playback and what is shown of them.
-/

namespace Milling

open Datum (required orNull)

def Motion.name : Motion → String
  | .rapid => "rapid"
  | .linear => "linear"
  | .arcClockwise => "arc-clockwise"
  | .arcCounterclockwise => "arc-counter-clockwise"
  | .other => "other"

instance : Storable Motion where
  encode m := .text m.name
  decode := Datum.choice? Motion.all Motion.name

def MoveKind.name : MoveKind → String
  | .rapid => "rapid"
  | .cutting => "cutting"

instance : Storable MoveKind where
  encode k := .text k.name
  decode := Datum.choice? MoveKind.all MoveKind.name

/-- A field for a G code, which may be missing or null. -/
def codeField : Option Datum → Option (Option Nat)
  | none => some none
  | some .null => some none
  | some d => (d.nat? (Block.greatestCode + 1)).map some

def Command.keys : List String :=
  ["line_number", "raw_text", "motion_type", "g_code", "x", "y", "z", "feed_rate", "i", "j", "k",
   "comment"]

instance : Storable Command where
  encode c :=
    .record [("line_number", encode c.line), ("raw_text", encode c.text),
      ("motion_type", encode c.motion), ("g_code", encode c.g), ("x", encode c.x),
      ("y", encode c.y), ("z", encode c.z), ("feed_rate", encode c.feed), ("i", encode c.i),
      ("j", encode c.j), ("k", encode c.k), ("comment", encode c.comment)]
  decode d := do
    let [line, text, motion, g, x, y, z, feed, i, j, k, comment] ←
      d.fields? Command.keys false | none
    some
      { line := ← required line, text := ← required text, motion := ← required motion
        g := ← codeField g, x := ← orNull x, y := ← orNull y, z := ← orNull z
        feed := ← orNull feed, i := ← orNull i, j := ← orNull j, k := ← orNull k
        comment := ← orNull comment }

instance : Storable ToolPoint where
  encode p :=
    .record [("position", encode p.position), ("move_class", encode p.kind),
      ("source_line", encode p.line)]
  decode d := do
    let [position, kind, line] ←
      d.fields? ["position", "move_class", "source_line"] false | none
    some ⟨← required position, ← required kind, ← required line⟩

instance : Storable Program where
  encode p :=
    .record [("commands", encode p.commands), ("toolpath", encode p.toolpath),
      ("bounds", encode p.bounds)]
  decode d := do
    let [commands, toolpath, bounds] ← d.fields? ["commands", "toolpath", "bounds"] false | none
    some ⟨← required commands, ← required toolpath, ← required bounds⟩

instance : Storable Playback where
  encode s :=
    .record [("current_index", encode s.index), ("progress", encode s.progress),
      ("is_playing", encode s.playing), ("speed", encode s.speed)]
  decode d := do
    let [index, progress, playing, speed] ←
      d.fields? ["current_index", "progress", "is_playing", "speed"] false | none
    some ⟨← required index, ← required progress, ← required playing, ← required speed⟩

def Totals.keys : List String :=
  ["total_distance", "rapid_distance", "cutting_distance", "estimated_time_seconds",
   "rapid_move_count", "cutting_move_count", "arc_move_count"]

instance : Storable Totals where
  encode t :=
    .record [("total_distance", encode t.distance), ("rapid_distance", encode t.rapidDistance),
      ("cutting_distance", encode t.cuttingDistance),
      ("estimated_time_seconds", encode t.seconds), ("rapid_move_count", encode t.rapidMoves),
      ("cutting_move_count", encode t.cuttingMoves), ("arc_move_count", encode t.arcMoves)]
  decode d := do
    let [distance, rapid, cutting, seconds, rapidMoves, cuttingMoves, arcMoves] ←
      d.fields? Totals.keys false | none
    some
      ⟨← required distance, ← required rapid, ← required cutting, ← required seconds,
        ← required rapidMoves, ← required cuttingMoves, ← required arcMoves⟩

instance : Storable Progress where
  encode p :=
    .record [("completed", encode p.completed), ("remaining_cutting", encode p.cutting),
      ("remaining_rapid", encode p.rapid)]
  decode d := do
    let [completed, cutting, rapid] ←
      d.fields? ["completed", "remaining_cutting", "remaining_rapid"] false | none
    some ⟨← required completed, ← required cutting, ← required rapid⟩

def Status.keys : List String :=
  ["position", "move_class", "source_line", "command_text", "current_index", "total_points"]

instance : Storable Status where
  encode s :=
    .record [("position", encode s.position), ("move_class", encode s.kind),
      ("source_line", encode s.line), ("command_text", encode s.text),
      ("current_index", encode s.index), ("total_points", encode s.total)]
  decode d := do
    let [position, kind, line, text, index, total] ← d.fields? Status.keys false | none
    some
      ⟨← required position, ← required kind, ← required line, ← orNull text, ← required index,
        ← required total⟩

end Milling
