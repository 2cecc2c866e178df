import Milling.Session.Kept
/-!
When a session is saved.

Of every action it is known beforehand whether it is to be kept (`Action.isKept`), and this is when
it saves: an action that is to be kept and is not refused ends with the new preferences going to the
store, and any other leaves both the store and the preferences as they were (`Kept.perform_keeps`).
-/

namespace Milling

/-- The action, unless it is refused, changes what is kept of a session. -/
def Action.isKept : Action → Bool
  | .setProgram _ | .loadTemplate _ | .loadSample | .setFileName _ => true
  | .setSpeed _ | .speedUp | .speedDown => true
  | .setCamera _ | .setToolDiameter _ | .toggleElement _ => true
  | .setWorkpiece _ | .setMaterial _ | .setManualWorkpiece _ => true
  | .toggleDepthColours | .setDepthWindow _ => true
  | _ => false

namespace Session

theorem preferences_markHere (s : Session) : s.markHere.preferences = s.preferences := by
  unfold markHere
  split <;> rfl

namespace Kept

variable {σ : Type} [KeyStore σ] {k : Kept σ} {a : Action}

/-- The action changes what is kept and is not refused. -/
def keeps (k : Kept σ) (a : Action) : Bool :=
  a.isKept && !(k.perform a).1.isRefusal

theorem keeps_iff : k.keeps a = true ↔ a.isKept = true ∧ (k.perform a).1.isRefusal = false := by
  unfold keeps
  rw [Bool.and_eq_true, Bool.not_eq_true']

/-- An action either saves the preferences that it leads to, as the last thing it does, or it
touches neither the store nor the preferences. -/
theorem perform_keeps (k : Kept σ) (a : Action) :
    (k.keeps a = true → (k.perform a).2.store =
      (Snapshot.save k.store (k.perform a).2.session.preferences).2) ∧
    (k.keeps a = false → (k.perform a).2.store = k.store ∧
      (k.perform a).2.session.preferences = k.session.preferences) := by
  cases a with
  | loadTemplate id =>
    simp only [keeps, perform]
    cases Template.find? id with
    | none => exact ⟨nofun, fun _ => ⟨rfl, rfl⟩⟩
    | some t => exact ⟨fun _ => rfl, nofun⟩
  | setSpeed speed =>
    simp only [keeps, perform]
    cases k.session.playback.setSpeed speed with
    | none => exact ⟨nofun, fun _ => ⟨rfl, rfl⟩⟩
    | some playback => exact ⟨fun _ => rfl, nofun⟩
  | setToolDiameter diameter =>
    simp only [keeps, perform]
    split
    · exact ⟨fun _ => rfl, nofun⟩
    · exact ⟨nofun, fun _ => ⟨rfl, rfl⟩⟩
  | play | pause | toggle | stop | stepForward | stepBackward => exact ⟨nofun, fun _ => ⟨rfl, rfl⟩⟩
  | seek _ | seekFraction _ | tick _ => exact ⟨nofun, fun _ => ⟨rfl, rfl⟩⟩
  | setColliding _ | setMeasuring _ | addMark _ | clearMarks => exact ⟨nofun, fun _ => ⟨rfl, rfl⟩⟩
  | markHere => exact ⟨nofun, fun _ => ⟨rfl, k.session.preferences_markHere⟩⟩
  | _ => exact ⟨fun _ => rfl, nofun⟩

/-- A kept action that is not refused leaves the new preferences in the store. -/
theorem store_perform (hkept : a.isKept = true) (hdone : (k.perform a).1.isRefusal = false) :
    (k.perform a).2.store = (Snapshot.save k.store (k.perform a).2.session.preferences).2 :=
  (k.perform_keeps a).1 (keeps_iff.mpr ⟨hkept, hdone⟩)

end Kept

end Session

end Milling
