import Milling.Proofs.Data.Records
import Milling.Proofs.Store
/-!
Starting again and again.

Whatever a store holds, the preferences that a session starts with can be used and can be stored:
they are their own fallbacks, and none of their numbers is lost in a text (`Snapshot.settled_load`).
So the session after the next one starts with the same preferences, and so does every later one
(`Snapshot.load_restarts`).
-/

namespace Milling

open Binary64

namespace Preferences

variable {p : Preferences}

/-! ### Finite numbers -/

theorem isFinite_initial : initial.isFinite = true := by decide +kernel

/-- All numbers of preferences that were read are finite. -/
theorem isFinite_of_read? {s : String} (h : Json.read? s = some p) : p.isFinite = true := by
  obtain ⟨d, hd, hp⟩ := Option.bind_eq_some_iff.mp h
  have hfaithful : Faithful p := Stable.faithful (Json.isFinite_parse? hd) hp
  exact plain_preferences_iff.mp hfaithful.plain

/-! ### Fallbacks -/

theorem isFinite_orPositive {default x : Float} (hdefault : default.isFinite = true)
    (hx : x.isFinite = true) : (orPositive default x).isFinite = true := by
  unfold orPositive
  split <;> assumption

theorem isFinite_withFallbacks (h : p.isFinite = true) : p.withFallbacks.isFinite = true := by
  simp only [isFinite, Bool.and_eq_true] at h ⊢
  obtain ⟨⟨⟨hspeed, hdiameter⟩, hworkpiece⟩, hwindow⟩ := h
  exact ⟨⟨⟨isFinite_orPositive (by decide +kernel) hspeed,
    isFinite_orPositive (by decide +kernel) hdiameter⟩, hworkpiece⟩, hwindow⟩

theorem orText_ne {default : String} (h : default ≠ "") (s : String) : orText default s ≠ "" := by
  unfold orText
  split
  · exact h
  · rename_i hs
    simpa using hs

theorem orText_of_ne {default s : String} (h : s ≠ "") : orText default s = s :=
  if_neg (by simpa using h)

theorem orPositive_of_isPositive {default x : Float} (h : isPositive x = true) :
    orPositive default x = x :=
  if_pos h

/-- Preferences that a session can start with and that can be stored. -/
structure Settled (p : Preferences) : Prop where
  program : p.program ≠ ""
  fileName : p.fileName ≠ ""
  camera : p.camera ≠ ""
  speed : isPositive p.speed = true
  toolDiameter : isPositive p.toolDiameter = true
  finite : p.isFinite = true

/-- Finite preferences are settled once they have defaults for what cannot be used. -/
theorem settled_withFallbacks (h : p.isFinite = true) : p.withFallbacks.Settled where
  program := orText_ne (by decide +kernel) p.program
  fileName := orText_ne (by decide) p.fileName
  camera := orText_ne (by decide) p.camera
  speed := isPositive_orPositive (by decide +kernel) p.speed
  toolDiameter := isPositive_orPositive (by decide +kernel) p.toolDiameter
  finite := isFinite_withFallbacks h

theorem Settled.withFallbacks_eq (h : p.Settled) : p.withFallbacks = p := by
  unfold withFallbacks
  rw [orText_of_ne h.program, orText_of_ne h.fileName, orText_of_ne h.camera,
    orPositive_of_isPositive h.speed, orPositive_of_isPositive h.toolDiameter]

end Preferences

namespace Snapshot

/-! ### Stores -/

variable {σ : Type} [KeyStore σ]

/-- Every session starts with settled preferences, whatever the store holds. -/
theorem settled_load (store : σ) : (load store).Settled := by
  unfold load
  split
  · rename_i p hload
    obtain ⟨text, q, hread, rfl⟩ := exists_load?_eq hload
    exact Preferences.settled_withFallbacks (Preferences.isFinite_of_read? hread)
  · rw [← Preferences.withFallbacks_initial]
    exact Preferences.settled_withFallbacks Preferences.isFinite_initial

theorem load_of_load? {store : σ} {p : Preferences} (h : load? store = .ok (some p)) :
    load store = p := by
  rw [load, h]

/-- What a store becomes by sessions that do nothing but save what they start with. -/
inductive Restarts (store : σ) : σ → Prop
  | refl : Restarts store store
  | again {s : σ} : Restarts store s → (save s (load s)).1 = .ok () →
      Restarts store (save s (load s)).2

variable [KeyStore.Keeps σ]

/-- Settled preferences whose numbers survive a text come back as they were. -/
theorem load?_save_of_settled {store : σ} {p : Preferences} (h : p.Settled)
    (hnumbers : ∀ x ∈ p.numbers, x.isFinite = true → Json.read? (Json.write x) = some x)
    (hsaved : (save store p).1 = .ok ()) : load? (save store p).2 = .ok (some p) := by
  have hfinite := p.isFinite_iff.mp h.finite
  have hcarried : p.carried = p := Preferences.carried_eq fun x hx =>
    Json.carried_of_read? (hnumbers x hx (hfinite x hx))
  rw [load?_save hsaved, if_pos h.finite, hcarried, h.withFallbacks_eq]

/-- The preferences that a session starts with can be used, are their own fallbacks, and come back
from every store that takes them; so no number of restarts changes them. -/
theorem load_restarts (store : σ)
    (hnumbers : ∀ x ∈ (load store).numbers, x.isFinite = true →
      Json.read? (Json.write x) = some x) :
    (load store).Settled ∧ (load store).withFallbacks = load store ∧
      (∀ target : σ, (save target (load store)).1 = .ok () →
        load? (save target (load store)).2 = .ok (some (load store)) ∧
          load (save target (load store)).2 = load store) ∧
      ∀ later, Restarts store later → load later = load store := by
  have hsettled := settled_load store
  have hback : ∀ target : σ, (save target (load store)).1 = .ok () →
      load? (save target (load store)).2 = .ok (some (load store)) :=
    fun _ => load?_save_of_settled hsettled hnumbers
  refine ⟨hsettled, hsettled.withFallbacks_eq, fun target hsaved => ?_, fun later hlater => ?_⟩
  · exact ⟨hback target hsaved, load_of_load? (hback target hsaved)⟩
  · induction hlater with
    | refl => rfl
    | again _ hsaved ih =>
      rw [ih] at hsaved ⊢
      exact load_of_load? (hback _ hsaved)

/-- A text with a blank name and a speed below zero, and no more than one other field: the session
after the next starts like the next. -/
theorem load_restarts_partial :
    let store : MemoryStore := ⟨[(key,
      "\x7b\"file_name\": \"\", \"playback_speed\": -2, \"depth_filter\": \x7b\"min\": -12.7, \"max\": 0.1\x7d\x7d")]⟩
    (load store).fileName = "sample.nc" ∧ (load store).depthWindow.min = -12.7 ∧
      load (save store (load store)).2 = load store := by
  intro store
  have h := load_restarts store (by decide +kernel)
  exact ⟨by decide +kernel, by decide +kernel, (h.2.2.1 store rfl).2⟩

end Snapshot

end Milling
