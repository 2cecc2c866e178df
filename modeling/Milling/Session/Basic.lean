import Milling.Lint.Check
import Milling.Playback
import Milling.Preferences.Basic
import Milling.Program.Compile
import Milling.Scene.Status
import Milling.Session.Mark
import Milling.Totals
/-!
A session: preferences, the program compiled from their text, playback of it, and marks.

A session is a value. Keeping its preferences in a store is the business of `Session.Kept`.
-/

namespace Milling

structure Session where
  preferences : Preferences
  program : Program
  playback : Playback
  measuring : Bool
  marks : List Mark
  colliding : Bool
deriving BEq, Inhabited

namespace Session

/-- The session that starts with the given preferences. -/
def start (p : Preferences) : Session :=
  { preferences := p
    program := Program.compile p.program
    playback := .ofSpeed p.speed
    measuring := false
    marks := []
    colliding := false }

/-- Replaces the program and goes to its start. -/
def publish (s : Session) (text : String) : Session :=
  { s with
    preferences := { s.preferences with program := text }
    program := Program.compile text
    playback := s.playback.reset }

/-- Replaces the state of playback and keeps its speed as the preferred one. -/
def preferSpeed (s : Session) (playback : Playback) : Session :=
  { s with playback, preferences := { s.preferences with speed := playback.speed } }

/-- Changes the preferences for the block of material. -/
def adjustWorkpiece (s : Session) (f : Workpiece → Workpiece) : Session :=
  { s with preferences := { s.preferences with workpiece := f s.preferences.workpiece } }

/-! ### What a session shows -/

def toolPosition (s : Session) : Point :=
  s.playback.position s.program

def stock (s : Session) : Stock :=
  s.preferences.workpiece.stock s.program.bounds

def measurement (s : Session) : Option Measurement :=
  Measurement.ofMarks s.marks

def totals (s : Session) : Totals :=
  Totals.ofProgram s.program

def report (s : Session) : Lint.Report :=
  Lint.check s.preferences.program

def status (s : Session) : Status :=
  Status.capture s.program s.playback

end Session

end Milling
