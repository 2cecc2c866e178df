import Milling.Proofs.Playback.Sound
import Milling.Proofs.Preferences.Refusal
import Milling.Proofs.Session.Consistent
/-!
Refused requests.

Which requests are refused depends on their arguments alone, not on the session (`Refused`), and a
refused request leaves session and store as they were. So do preferences that are to be written to a
file with the disk, if they cannot be used or the name of the file tells no format. The main result
puts the two together (`refused_keeps`).
-/

namespace Milling

theorem Template.find?_eq_none_iff (id : String) : Template.find? id = none ↔ id ∉ Template.ids := by
  rw [find?, List.find?_eq_none, ids, List.mem_map]
  simp only [beq_iff_eq, not_exists, not_and]

namespace Session

/-- The action is refused with a reply: it asks for a template that is not in the library, or gives
as a speed or a diameter what is NaN, infinite, zero or below zero. -/
inductive Refused : Action → Reply → Prop
  | template {id : String} : id ∉ Template.ids →
      Refused (.loadTemplate id) (.refusedProgram (.unknownTemplate id))
  | speed {x : Float} : x.isNaN ∨ x.isInf ∨ x ≤ 0.0 →
      Refused (.setSpeed x) (.refused (.invalid "playback_speed" (.notPositive x)))
  | toolDiameter {x : Float} : x.isNaN ∨ x.isInf ∨ x ≤ 0.0 →
      Refused (.setToolDiameter x) (.refused (.invalid "tool_diameter" (.notPositive x)))

theorem Refused.isRefusal {a : Action} {reply : Reply} (h : Refused a reply) :
    reply.isRefusal = true := by
  cases h <;> rfl

namespace Kept

variable {σ : Type} [KeyStore σ] {k : Kept σ} {a : Action} {reply : Reply}

/-- A refused action ends before it changes anything. -/
theorem perform_of_refused (h : Refused a reply) : k.perform a = (reply, k) := by
  cases h with
  | template hid => rw [perform, (Template.find?_eq_none_iff _).mpr hid]
  | speed hx => rw [perform, (k.session.playback.setSpeed_eq_none_iff _).mpr hx]
  | @toolDiameter x hx =>
    have hnot : ¬ Binary64.isPositive x = true :=
      Bool.not_eq_true _ ▸ (Playback.isNoSpeed_iff x).mp hx
    rw [perform, if_neg hnot]

/-- A refusal is known from the request. -/
theorem exists_refused (h : (k.perform a).1.isRefusal = true) : ∃ reply, Refused a reply := by
  cases a with
  | loadTemplate id =>
    refine ⟨_, .template ((Template.find?_eq_none_iff id).mp ?_)⟩
    rw [perform] at h
    cases hfind : Template.find? id with
    | none => rfl
    | some t =>
      rw [hfind] at h
      cases h
  | setSpeed x =>
    refine ⟨_, .speed ((k.session.playback.setSpeed_eq_none_iff x).mp ?_)⟩
    rw [perform] at h
    cases hset : k.session.playback.setSpeed x with
    | none => rfl
    | some t =>
      rw [hset] at h
      cases h
  | setToolDiameter x =>
    refine ⟨_, .toolDiameter ((Playback.isNoSpeed_iff x).mpr ?_)⟩
    rw [perform] at h
    cases hpositive : Binary64.isPositive x with
    | false => rfl
    | true =>
      rw [hpositive] at h
      cases h
  | _ => cases h

/-- What is refused is known from the request, and changes neither the session nor the store. -/
structure KeepsRefused (k : Kept σ) : Prop where
  refused_iff : ∀ a, (k.perform a).1.isRefusal = true ↔ ∃ reply, Refused a reply
  perform : ∀ a reply, Refused a reply → k.perform a = (reply, k)

theorem keepsRefused (k : Kept σ) : k.KeepsRefused where
  refused_iff a := by
    constructor
    · exact exists_refused
    · rintro ⟨reply, h⟩
      rw [perform_of_refused h]
      exact h.isRefusal
  perform _ _ := perform_of_refused

/-- In every session, reachable or not, a refused request changes nothing, and on every disk neither
does a refused setting or a name without a format. Saving to a tree is `toFile`. -/
theorem refused_keeps {δ : Type} [Disk δ] (k : Kept σ) (p : Preferences) (disk : δ) (path : String) :
    k.KeepsRefused ∧ p.KeepsDisk disk path ∧
      ∀ tree : FileTree, p.save tree path = tree.after (p.toFile tree path) :=
  ⟨k.keepsRefused, p.keepsDisk disk path, fun tree => p.save_tree tree path⟩

end Kept

end Session

end Milling
