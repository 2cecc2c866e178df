import Milling.Proofs.Playback
import Milling.Proofs.Preferences.Loaded
import Milling.Session.Kept
/-!
What holds of a session at all times.

A session keeps several things twice: the program as text and compiled, the speed as preference and
of playback. `Session.Consistent` says how they agree and where the tool can be. A session starts
so whatever its store holds, and every action leaves it so (`Kept.consistent_perform`).
-/

namespace Milling

namespace Session

open Binary64 Playback

/-- The program is that of the text, the tool is on it, the preferred speed is the one played at,
and no more marks are kept than can be measured between. -/
structure Consistent (s : Session) : Prop where
  program : s.program = Program.compile s.preferences.program
  index : s.playback.index ≤ s.program.lastIndex
  progress : 0.0 ≤ s.playback.progress ∧ s.playback.progress < 1.0
  atLast : s.playback.index = s.program.lastIndex → s.playback.progress = 0.0
  speed : speed? s.preferences.speed = some s.playback.speed
  speedRange : 0.25 ≤ s.playback.speed ∧ s.playback.speed ≤ 4.0
  marks : s.marks.length ≤ 2

variable {s : Session}

theorem Consistent.placed (h : s.Consistent) : s.playback.Placed s.program.lastIndex :=
  ⟨h.index, h.progress.1, h.progress.2, h.atLast⟩

theorem Consistent.isSpeed (h : s.Consistent) : IsSpeed s.playback.speed :=
  isSpeed_of_speed? h.speed

/-- The bounds on the speed follow from its being accepted. -/
theorem consistent_of_placed (program : s.program = Program.compile s.preferences.program)
    (placed : s.playback.Placed s.program.lastIndex)
    (speed : speed? s.preferences.speed = some s.playback.speed) (marks : s.marks.length ≤ 2) :
    s.Consistent where
  program := program
  index := placed.index
  progress := ⟨placed.least, placed.below⟩
  atLast := placed.atLast
  speed := speed
  speedRange := (isSpeed_of_speed? speed).bounds
  marks := marks

/-! ### The start -/

/-- Preferences whose speed can be used. -/
theorem consistent_start {p : Preferences} (h : isPositive p.speed = true) :
    (start p).Consistent := by
  refine consistent_of_placed rfl (placed_at (Nat.zero_le _) rfl) ?_ (Nat.zero_le 2)
  obtain ⟨x, hx⟩ := Option.isSome_iff_exists.mp (speed?_isSome_of_isPositive h)
  change speed? p.speed = some ((speed? p.speed).getD initial.speed)
  rw [hx]
  rfl

/-! ### Parts of actions -/

/-- A new program is compiled from its text and played from its start. -/
theorem Consistent.publish (h : s.Consistent) (text : String) : (s.publish text).Consistent :=
  consistent_of_placed rfl (placed_reset _ _) h.speed h.marks

/-- A change that keeps the program and the speed, and keeps the tool on the toolpath. -/
theorem Consistent.keep (h : s.Consistent) {t : Session} (hprogram : t.program = s.program)
    (htext : t.preferences.program = s.preferences.program)
    (hspeed : t.preferences.speed = s.preferences.speed)
    (hplayed : t.playback.speed = s.playback.speed)
    (hplaced : t.playback.Placed s.program.lastIndex) (hmarks : t.marks.length ≤ 2) :
    t.Consistent := by
  refine consistent_of_placed ?_ (hprogram ▸ hplaced) ?_ hmarks
  · rw [hprogram, htext]
    exact h.program
  · rw [hspeed, hplayed]
    exact h.speed

/-- A change of playback to another speed, which the preferences follow. -/
theorem Consistent.preferSpeed (h : s.Consistent) {t : Playback}
    (hindex : t.index = s.playback.index) (hprogress : t.progress = s.playback.progress)
    (hspeed : IsSpeed t.speed) : (s.preferSpeed t).Consistent :=
  consistent_of_placed h.program (h.placed.congr hindex hprogress) hspeed.speed?_eq h.marks

theorem length_push_le (marks : List Mark) (mark : Mark) (h : marks.length ≤ 2) :
    (Mark.push marks mark).length ≤ 2 := by
  unfold Mark.push Mark.kept
  split
  · rw [List.length_append, List.length_tail, List.length_singleton]
    omega
  · rw [List.length_append, List.length_singleton]
    omega

/-! ### Actions -/

namespace Kept

variable {σ : Type} [KeyStore σ]

/-- Every action leaves a consistent session consistent. -/
theorem consistent_perform {k : Kept σ} (h : k.session.Consistent) (a : Action) :
    (k.perform a).2.session.Consistent := by
  cases a with
  | setProgram text => exact h.publish text
  | loadTemplate id =>
    simp only [perform]
    cases Template.find? id with
    | none => exact h
    | some t =>
      have hp := h.publish t.text
      exact hp.keep rfl rfl rfl rfl hp.placed hp.marks
  | loadSample =>
    have hp := h.publish Template.sample.text
    exact hp.keep rfl rfl rfl rfl hp.placed hp.marks
  | play | pause | toggle => exact h.keep rfl rfl rfl rfl (h.placed.congr rfl rfl) h.marks
  | stop => exact h.keep rfl rfl rfl rfl (placed_stop _ _) h.marks
  | stepForward | seek _ | seekFraction _ =>
    exact h.keep rfl rfl rfl rfl (placed_seek _ _ _) h.marks
  | stepBackward => exact h.keep rfl rfl rfl rfl h.placed.stepBackward h.marks
  | tick elapsed =>
    exact h.keep rfl rfl rfl (speed_tick _ _ _) (h.placed.tick h.isSpeed elapsed) h.marks
  | setSpeed speed =>
    simp only [perform]
    cases hset : k.session.playback.setSpeed speed with
    | none => exact h
    | some t =>
      obtain ⟨x, hx, rfl⟩ := Option.map_eq_some_iff.mp hset
      exact h.preferSpeed rfl rfl (isSpeed_of_speed? hx)
  | speedUp => exact h.preferSpeed rfl rfl (isSpeed_speedUp h.isSpeed)
  | speedDown => exact h.preferSpeed rfl rfl (isSpeed_speedDown h.isSpeed)
  | setToolDiameter diameter =>
    simp only [perform]
    split
    · exact h.keep rfl rfl rfl rfl h.placed h.marks
    · exact h
  | addMark mark => exact h.keep rfl rfl rfl rfl h.placed (length_push_le _ _ h.marks)
  | markHere =>
    change k.session.markHere.Consistent
    unfold markHere
    split
    · exact h.keep rfl rfl rfl rfl h.placed (length_push_le _ _ h.marks)
    · exact h
  | clearMarks => exact h.keep rfl rfl rfl rfl h.placed (Nat.zero_le 2)
  -- The others change neither the program, nor the speed, nor playback, nor the marks.
  | _ => exact h.keep rfl rfl rfl rfl h.placed h.marks

/-- The session with its store after some actions, from first to last. -/
def performAll (k : Kept σ) (actions : List Action) : Kept σ :=
  actions.foldl (fun k a => (k.perform a).2) k

/-- What every action preserves holds after any actions. -/
theorem invariant_performAll {P : Session → Prop}
    (hstep : ∀ (k : Kept σ) a, P k.session → P (k.perform a).2.session) {k : Kept σ}
    (h : P k.session) (actions : List Action) : P (k.performAll actions).session := by
  induction actions generalizing k with
  | nil => exact h
  | cons a actions ih => exact ih (hstep k a h)

/-- Any actions leave a consistent session consistent. -/
theorem consistent_performAll {k : Kept σ} (h : k.session.Consistent) (actions : List Action) :
    (k.performAll actions).session.Consistent :=
  invariant_performAll (P := Consistent) (fun _ a h => consistent_perform h a) h actions

/-- From any store, any actions lead to a consistent session. -/
theorem consistent_of_load (store : σ) (actions : List Action) :
    ((load store).performAll actions).session.Consistent :=
  consistent_performAll (consistent_start (Snapshot.isPositive_speed_load store)) actions

end Kept

end Session

end Milling
