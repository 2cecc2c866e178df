import Mathlib.Tactic.Common
import Milling.Store.Snapshot
/-!
Preferences that come from a store.

Whatever a store holds, the preferences to start with have their defaults in place of what cannot be
used, so the speed and the diameter of the tool are always positive.
-/

namespace Milling

open Binary64

namespace Preferences

theorem isPositive_orPositive {default : Float} (h : isPositive default = true) (x : Float) :
    isPositive (orPositive default x) = true := by
  unfold orPositive
  split
  · assumption
  · exact h

/-- The initial preferences are their own fallbacks. -/
theorem withFallbacks_initial : initial.withFallbacks = initial := by
  unfold withFallbacks orText orPositive
  simp only [ite_self]

end Preferences

namespace Snapshot

variable {σ : Type} [KeyStore σ]

/-- A text under the key is read as preferences, or not at all. -/
theorem load?_of_get {store : σ} {text : String}
    (h : KeyStore.get store key = .ok (some text)) :
    load? store = match (Json.read? text : Option Preferences) with
      | some p => .ok (some p.withFallbacks)
      | none => .error .json := by
  unfold load?
  rw [h]
  rfl

/-- What comes from a store was read from a text and has its defaults. -/
theorem exists_load?_eq {store : σ} {p : Preferences} (h : load? store = .ok (some p)) :
    ∃ (text : String) (q : Preferences), Json.read? text = some q ∧ p = q.withFallbacks := by
  cases hget : (KeyStore.get store key : Except Fault (Option String)) with
  | error fault =>
    unfold load? at h
    rw [hget] at h
    cases h
  | ok found =>
    cases found with
    | none =>
      unfold load? at h
      rw [hget] at h
      cases h
    | some text =>
      rw [load?_of_get hget] at h
      cases hread : (Json.read? text : Option Preferences) with
      | none =>
        rw [hread] at h
        cases h
      | some q =>
        rw [hread] at h
        cases h
        exact ⟨text, q, hread, rfl⟩

/-- A session starts with preferences that have defaults for what cannot be used. -/
theorem exists_load_eq (store : σ) : ∃ q : Preferences, load store = q.withFallbacks := by
  unfold load
  split
  · rename_i p hload
    obtain ⟨-, q, -, hq⟩ := exists_load?_eq hload
    exact ⟨q, hq⟩
  · exact ⟨.initial, Preferences.withFallbacks_initial.symm⟩

/-- Whatever the store holds, a session starts with a speed that can be used. -/
theorem isPositive_speed_load (store : σ) : isPositive (load store).speed = true := by
  obtain ⟨q, hq⟩ := exists_load_eq store
  rw [hq]
  exact Preferences.isPositive_orPositive (by decide +kernel) q.speed

theorem isPositive_toolDiameter_load (store : σ) :
    isPositive (load store).toolDiameter = true := by
  obtain ⟨q, hq⟩ := exists_load_eq store
  rw [hq]
  exact Preferences.isPositive_orPositive (by decide +kernel) q.toolDiameter

end Snapshot

end Milling
