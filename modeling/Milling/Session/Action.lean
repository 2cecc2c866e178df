import Milling.Session.Basic
/-!
What a user can ask of a session, what the answers are, and the changes that several actions share.
-/

namespace Milling

/-- What a user can ask of a session. -/
inductive Action
  /-- Replaces the program by a text. -/
  | setProgram (text : String)
  | loadTemplate (id : String)
  | loadSample
  | setFileName (name : String)
  | play
  | pause
  | toggle
  | stop
  | stepForward
  | stepBackward
  | seek (index : Nat)
  | seekFraction (fraction : Float)
  /-- Lets time pass. -/
  | tick (elapsed : Float)
  | setSpeed (speed : Float)
  | speedUp
  | speedDown
  | setCamera (name : String)
  | setToolDiameter (diameter : Float)
  /-- Shows or hides an element of the view. -/
  | toggleElement (element : Element)
  | setWorkpiece (workpiece : Workpiece)
  | setMaterial (id : String)
  | setManualWorkpiece (manual : Bool)
  | toggleDepthColours
  | setDepthWindow (window : DepthWindow)
  | setColliding (colliding : Bool)
  | setMeasuring (measuring : Bool)
  | addMark (mark : Mark)
  /-- Marks the point of the toolpath at which playback is. -/
  | markHere
  | clearMarks
deriving Inhabited

/-- The answer to an action. -/
inductive Reply
  | done
  /-- A flag after it was switched, or whether a point was reached. -/
  | flag (value : Bool)
  | refused (fault : Fault)
  | refusedProgram (fault : ProgramFault)
deriving Inhabited

def Reply.isRefusal : Reply → Bool
  | .refused _ | .refusedProgram _ => true
  | _ => false

namespace Session

/-- The session with other preferences, when nothing else depends on the change. -/
def prefer (s : Session) (f : Preferences → Preferences) : Session :=
  { s with preferences := f s.preferences }

def run (s : Session) (f : Playback → Playback) : Session :=
  { s with playback := f s.playback }

/-- The session with a mark at the current point, if there is one. -/
def markHere (s : Session) : Session :=
  match s.program.point? s.playback.index with
  | some point =>
    { s with marks := Mark.push s.marks ⟨point.position, Mark.nextLabel s.marks⟩ }
  | none => s

end Session

end Milling
