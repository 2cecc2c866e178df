import Milling.Proofs.Session.Consistent
import Milling.Proofs.Session.Persist
import Milling.Proofs.Store
/-!
What the store holds after an action that is kept.

The text in the store can be read again exactly if the block of material and the window of heights
are finite: the speed and the diameter of the tool are checked before they are taken, these are not
(`Kept.load?_perform`). Where it cannot be read, the next session starts with the initial
preferences.
-/

namespace Milling

open Binary64

namespace Session

/-- In a consistent session only the block of material and the window of heights may hold numbers
that are not finite. -/
theorem Consistent.isFinite_preferences {s : Session} (h : s.Consistent)
    (hdiameter : isPositive s.preferences.toolDiameter = true) :
    s.preferences.isFinite =
      (s.preferences.workpiece.isFinite && s.preferences.depthWindow.isFinite) := by
  have hspeed : isPositive s.preferences.speed = true := by
    by_contra hnot
    have hnone : Playback.speed? s.preferences.speed = none := if_neg hnot
    exact absurd (hnone.symm.trans h.speed) nofun
  exact Preferences.isFinite_of_isPositive hspeed hdiameter

namespace Kept

/-- The diameter is checked where it is changed. -/
theorem isPositive_toolDiameter_perform {σ : Type} [KeyStore σ] (k : Kept σ) (a : Action)
    (h : isPositive k.session.preferences.toolDiameter = true) :
    isPositive (k.perform a).2.session.preferences.toolDiameter = true := by
  cases a with
  | loadTemplate id =>
    simp only [perform]
    cases Template.find? id <;> exact h
  | setSpeed speed =>
    simp only [perform]
    cases k.session.playback.setSpeed speed <;> exact h
  | setToolDiameter diameter =>
    simp only [perform]
    split
    · rename_i hpositive
      exact hpositive
    · exact h
  | markHere =>
    change isPositive k.session.markHere.preferences.toolDiameter = true
    rw [preferences_markHere]
    exact h
  | _ => exact h

/-- In every session the numbers that actions check are finite. -/
theorem isFinite_preferences_perform {σ : Type} [KeyStore σ] (store : σ) (actions : List Action)
    (a : Action) :
    let p := (((load store).performAll actions).perform a).2.session.preferences
    p.isFinite = (p.workpiece.isFinite && p.depthWindow.isFinite) := by
  have hconsistent : ((load store).performAll actions).session.Consistent :=
    consistent_performAll (consistent_start (Snapshot.isPositive_speed_load store)) actions
  have hdiameter := invariant_performAll (k := load store)
    (P := fun s => isPositive s.preferences.toolDiameter = true) isPositive_toolDiameter_perform
    (Snapshot.isPositive_toolDiameter_load store) actions
  exact (consistent_perform hconsistent a).isFinite_preferences
    (isPositive_toolDiameter_perform _ a hdiameter)

/-- After a kept action the store holds readable preferences exactly if the block of material and
the window of heights are finite. Then the next session starts with the preferences that were kept,
as far as their numbers survive the way through a text; otherwise it starts with the initial
ones. -/
theorem load?_perform (store : MemoryStore) (actions : List Action) (a : Action)
    (hkept : a.isKept = true)
    (hdone : (((load store).performAll actions).perform a).1.isRefusal = false) :
    let k := (((load store).performAll actions).perform a).2
    let p := k.session.preferences
    let finite := p.workpiece.isFinite && p.depthWindow.isFinite
    (Snapshot.load? k.store =
      if finite then .ok (some p.carried.withFallbacks) else .error .json) ∧
    Snapshot.load k.store = (if finite then p.carried.withFallbacks else .initial) ∧
    (finite = true → p.program ≠ "" → (Snapshot.load k.store).program = p.program) ∧
    ((∀ x ∈ p.numbers, x.isFinite = true → Json.read? (Json.write x) = some x) →
      (finite = true ↔ Snapshot.load? k.store = .ok (some p.withFallbacks) ∧
        Snapshot.load k.store = p.withFallbacks)) := by
  intro k p finite
  have hstore := store_perform hkept hdone
  have hfinite : p.isFinite = finite := isFinite_preferences_perform store actions a
  have hload? : Snapshot.load? k.store =
      if finite then .ok (some p.carried.withFallbacks) else .error .json := by
    rw [← hfinite, hstore]
    exact Snapshot.load?_save rfl
  have hload : Snapshot.load k.store =
      if finite then p.carried.withFallbacks else .initial := by
    rw [← hfinite, hstore]
    exact Snapshot.load_save rfl
  refine ⟨hload?, hload, ?_, ?_⟩
  · intro htrue hprogram
    rw [hload, if_pos htrue]
    change Preferences.orText _ p.program = p.program
    exact if_neg (by simpa using hprogram)
  · intro hround
    constructor
    · intro htrue
      have hall := p.isFinite_iff.mp (hfinite.trans htrue)
      have hsame : p.carried = p := Preferences.carried_eq fun x hx =>
        Json.carried_of_read? (hround x hx (hall x hx))
      rw [hload?, hload, if_pos htrue, if_pos htrue, hsame]
      exact ⟨rfl, rfl⟩
    · rintro ⟨hread, -⟩
      by_contra hnot
      rw [hload?, if_neg hnot] at hread
      cases hread

/-- A window with finite ends is kept: here every number survives. -/
theorem load?_perform_window :
    let k := ((load MemoryStore.empty).performAll [.setProgram "G1 X5"]).perform
      (.setDepthWindow ⟨-12.7, 0.1⟩)
    (Action.setDepthWindow ⟨-12.7, 0.1⟩).isKept = true ∧ k.1.isRefusal = false ∧
      Snapshot.load? k.2.store = .ok (some k.2.session.preferences.withFallbacks) ∧
      Snapshot.load k.2.store = k.2.session.preferences.withFallbacks := by
  have h := load?_perform MemoryStore.empty [.setProgram "G1 X5"] (.setDepthWindow ⟨-12.7, 0.1⟩)
    rfl rfl
  obtain ⟨-, -, -, hload⟩ := h
  exact ⟨rfl, rfl, (hload (by decide +kernel)).mp (by decide +kernel)⟩

/-- A window that is not bounded below is taken as well. Then the text in the store cannot be read,
and the next session starts with the initial preferences, not with those of this one. -/
theorem load_perform_unbounded :
    let k := ((load MemoryStore.empty).performAll [.setProgram "G1 X5"]).perform
      (.setDepthWindow ⟨-(1.0 / 0.0), 0.0⟩)
    let p := k.2.session.preferences
    (Action.setDepthWindow ⟨-(1.0 / 0.0), 0.0⟩).isKept = true ∧ k.1.isRefusal = false ∧
      p.program = "G1 X5" ∧ p ≠ .initial ∧
      Snapshot.load? k.2.store = .error .json ∧ Snapshot.load k.2.store = .initial ∧
      Snapshot.load k.2.store ≠ p.withFallbacks := by
  intro k p
  have hstore : k.2.store = (Snapshot.save _ p).2 := store_perform rfl rfl
  have hinfinite : ¬ p.isFinite = true := by decide +kernel
  have hsample : Preferences.initial.program ≠ "G1 X5" := by decide +kernel
  have hload : Snapshot.load k.2.store = .initial := by
    rw [hstore, Snapshot.load_save rfl]
    exact if_neg hinfinite
  refine ⟨rfl, rfl, rfl, ?_, ?_, hload, ?_⟩
  · exact fun h => hsample (congrArg Preferences.program h).symm
  · rw [hstore, Snapshot.load?_save rfl]
    exact if_neg hinfinite
  · rw [hload]
    exact fun h => hsample (congrArg Preferences.program h)

end Kept

end Session

end Milling
