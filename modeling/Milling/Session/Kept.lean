import Milling.Session.Action
import Milling.Store.Snapshot
import Milling.Template.Library
/-!
Sessions whose preferences are kept in a store.

The session starts with the preferences in the store. An action that changes them writes all of them
back once it has made its changes, and one that is refused ends before either. A store that fails
never influences the session.
-/

namespace Milling.Session

/-- A session and the store in which its preferences are kept. -/
structure Kept (σ : Type) where
  session : Session
  store : σ
deriving Inhabited

namespace Kept

variable {σ : Type} [KeyStore σ]

/-- The session that starts from a store. -/
def load (store : σ) : Kept σ :=
  ⟨start (Snapshot.load store), store⟩

/-- Writes the preferences of the session to the store. The session goes on whether or not the store
takes them. -/
def persist (k : Kept σ) : Kept σ :=
  { k with store := (Snapshot.save k.store k.session.preferences).2 }

def update (k : Kept σ) (f : Session → Session) : Kept σ :=
  { k with session := f k.session }

/-- The reply to an action, with the session and the store after it. -/
def perform (k : Kept σ) : Action → Reply × Kept σ
  | .setProgram text => (.done, (k.update (·.publish text)).persist)
  | .loadTemplate id =>
    match Template.find? id with
    | some t =>
      let session := (k.session.publish t.text).prefer ({ · with fileName := t.fileName })
      (.done, persist { k with session })
    | none => (.refusedProgram (.unknownTemplate id), k)
  | .loadSample =>
    let session := (k.session.publish Template.sample.text).prefer
      ({ · with fileName := Preferences.sampleFileName })
    (.done, persist { k with session })
  | .setFileName fileName => (.done, (k.update (·.prefer ({ · with fileName }))).persist)
  | .play => (.done, k.update (·.run Playback.play))
  | .pause => (.done, k.update (·.run Playback.pause))
  | .toggle => (.done, k.update (·.run Playback.toggle))
  | .stop => (.done, k.update (·.run Playback.stop))
  | .stepForward => (.done, k.update (·.run (·.stepForward k.session.program)))
  | .stepBackward => (.done, k.update (·.run Playback.stepBackward))
  | .seek index => (.done, k.update (·.run (·.seek k.session.program index)))
  | .seekFraction fraction =>
    (.done, k.update (·.run (·.seekFraction k.session.program fraction)))
  | .tick elapsed =>
    let (reached, playback) := k.session.playback.tick k.session.program elapsed
    (.flag reached, k.update ({ · with playback }))
  | .setSpeed speed =>
    match k.session.playback.setSpeed speed with
    | some playback => (.done, (k.update (·.preferSpeed playback)).persist)
    | none => (.refused (.invalid "playback_speed" (.notPositive speed)), k)
  | .speedUp => (.done, (k.update (·.preferSpeed k.session.playback.speedUp)).persist)
  | .speedDown => (.done, (k.update (·.preferSpeed k.session.playback.speedDown)).persist)
  | .setCamera camera => (.done, (k.update (·.prefer ({ · with camera }))).persist)
  | .setToolDiameter toolDiameter =>
    if Binary64.isPositive toolDiameter then
      (.done, (k.update (·.prefer ({ · with toolDiameter }))).persist)
    else (.refused (.invalid "tool_diameter" (.notPositive toolDiameter)), k)
  | .toggleElement element =>
    let visibility := k.session.preferences.visibility.toggle element
    (.flag (visibility.shows element), (k.update (·.prefer ({ · with visibility }))).persist)
  | .setWorkpiece workpiece =>
    (.done, (k.update (·.adjustWorkpiece fun _ => workpiece)).persist)
  | .setMaterial material => (.done, (k.update (·.adjustWorkpiece ({ · with material }))).persist)
  | .setManualWorkpiece manual =>
    (.done, (k.update (·.adjustWorkpiece ({ · with manual }))).persist)
  | .toggleDepthColours =>
    let depthColours := !k.session.preferences.depthColours
    (.flag depthColours, (k.update (·.prefer ({ · with depthColours }))).persist)
  | .setDepthWindow depthWindow => (.done, (k.update (·.prefer ({ · with depthWindow }))).persist)
  | .setColliding colliding => (.done, k.update ({ · with colliding }))
  | .setMeasuring measuring => (.done, k.update ({ · with measuring }))
  | .addMark mark => (.done, k.update fun s => { s with marks := Mark.push s.marks mark })
  | .markHere => (.done, k.update markHere)
  | .clearMarks => (.done, k.update ({ · with marks := [] }))

end Kept

end Milling.Session
