import Milling.Proofs.Playback.Reachable
/-!
Runs of playback under a clock.

`Ticked` lists what one tick can do, and every fact about ticks follows from that list. A run is
`Playback.ticks`; each point reached moves the index on by one (`index_ticks`), and a run that
starts while playing pauses nowhere but at the last point (`Underway.ticks`), whatever the clock
shows.
-/

namespace Milling.Playback

/-! ### One tick -/

/-- What a tick can do: the flag and the state after it. -/
inductive Ticked (p : Program) (s : Playback) : Bool × Playback → Prop
  | paused (hpaused : s.playing = false) : Ticked p s (false, s)
  | ended (hplaying : s.playing = true) (hend : p.lastIndex ≤ s.index) :
      Ticked p s (false, s.pause)
  | moved (hplaying : s.playing = true) (hbefore : s.index < p.lastIndex) (progress : Float) :
      Ticked p s (false, { s with progress })
  | reached (hplaying : s.playing = true) (hbefore : s.index < p.lastIndex) :
      Ticked p s (true, { s with
        index := s.index + 1, progress := 0.0, playing := decide (s.index + 1 < p.lastIndex) })

structure AtRest (p : Program) (s : Playback) : Prop where
  index : s.index = p.lastIndex
  progress : s.progress = 0.0

/-- Playback that only the last point pauses. -/
structure Underway (p : Program) (s : Playback) : Prop where
  placed : s.Placed p.lastIndex
  isSpeed : IsSpeed s.speed
  atRest : s.playing = false → AtRest p s

/-- The count of points reached while time passes in the given portions, and the state after
them. -/
def ticks (p : Program) : List Float → Playback → Nat × Playback
  | [], s => (0, s)
  | elapsed :: later, s =>
    let (reached, next) := s.tick p elapsed
    let (count, last) := ticks p later next
    (reached.toNat + count, last)

section

variable {p : Program} {s : Playback}

/-- A tick does one of the things that it can do. -/
theorem ticked (p : Program) (s : Playback) (elapsed : Float) : Ticked p s (s.tick p elapsed) := by
  unfold tick
  split
  · rename_i hpaused
    exact .paused (by simpa using hpaused)
  rename_i hplaying
  replace hplaying : s.playing = true := by simpa using hplaying
  split
  · rename_i hend
    exact .ended hplaying (by simpa [atEnd] using hend)
  rename_i hend
  have hbefore : s.index < p.lastIndex := by simpa [atEnd] using hend
  unfold advance
  dsimp only
  split
  · exact .moved hplaying hbefore _
  · rw [hplaying, Bool.true_and]
    exact .reached hplaying hbefore

/-- A tick reaches one point at most, and tells of it. -/
theorem index_tick (p : Program) (s : Playback) (elapsed : Float) :
    (s.tick p elapsed).2.index = s.index + (s.tick p elapsed).1.toNat := by
  have ht := ticked p s elapsed
  generalize s.tick p elapsed = t at ht ⊢
  cases ht <;> rfl

/-- The tool stands at a point when it has just reached it. -/
theorem progress_tick {elapsed : Float} (h : (s.tick p elapsed).1 = true) :
    (s.tick p elapsed).2.progress = 0.0 := by
  have ht := ticked p s elapsed
  generalize s.tick p elapsed = t at ht h ⊢
  cases ht with
  | reached => rfl
  | _ => cases h

/-- A tool that is still on its way has not reached the last point. -/
theorem index_lt_of_tick {elapsed : Float} (h : (s.tick p elapsed).2.playing = true) :
    (s.tick p elapsed).2.index < p.lastIndex := by
  have ht := ticked p s elapsed
  generalize s.tick p elapsed = t at ht h ⊢
  cases ht with
  | paused hpaused => rw [hpaused] at h; cases h
  | ended => cases h
  | moved _ hbefore => exact hbefore
  | reached => exact of_decide_eq_true h

theorem Underway.tick (h : Underway p s) (elapsed : Float) : Underway p (s.tick p elapsed).2 where
  placed := h.placed.tick h.isSpeed elapsed
  isSpeed := (speed_tick s p elapsed).symm ▸ h.isSpeed
  atRest hpaused := by
    have ht := ticked p s elapsed
    generalize s.tick p elapsed = t at ht hpaused ⊢
    cases ht with
    | paused => exact h.atRest hpaused
    | ended _ hend =>
      have hlast : s.index = p.lastIndex := le_antisymm h.placed.index hend
      exact ⟨hlast, h.placed.atLast hlast⟩
    | moved hplaying => exact absurd (hplaying.symm.trans hpaused) (by decide)
    | reached _ hbefore =>
      have hlast : ¬ s.index + 1 < p.lastIndex := of_decide_eq_false hpaused
      exact ⟨le_antisymm hbefore (not_lt.mp hlast), rfl⟩

/-! ### Runs -/

theorem ticks_cons (elapsed : Float) (later : List Float) :
    s.ticks p (elapsed :: later) =
      ((s.tick p elapsed).1.toNat + ((s.tick p elapsed).2.ticks p later).1,
        ((s.tick p elapsed).2.ticks p later).2) := rfl

theorem index_ticks (s : Playback) (elapsed : List Float) :
    (s.ticks p elapsed).2.index = s.index + (s.ticks p elapsed).1 := by
  induction elapsed generalizing s with
  | nil => rfl
  | cons e later ih => rw [ticks_cons, ih, index_tick, Nat.add_assoc]

theorem Underway.ticks (h : Underway p s) (elapsed : List Float) :
    Underway p (s.ticks p elapsed).2 := by
  induction elapsed generalizing s with
  | nil => exact h
  | cons e later ih => exact ih (h.tick e)

/-- Time does nothing while playback is paused. -/
theorem ticks_of_paused (h : s.playing = false) (elapsed : List Float) :
    s.ticks p elapsed = (0, s) := by
  have hstill : ∀ e, s.tick p e = (false, s) := by
    intro e
    simp [tick, h]
  induction elapsed with
  | nil => rfl
  | cons e later ih => rw [ticks_cons, hstill, ih]; rfl

/-- As long as it plays, playback has not come to the last point. -/
theorem index_lt_of_ticks {elapsed : List Float} (hne : elapsed ≠ [])
    (h : (s.ticks p elapsed).2.playing = true) : (s.ticks p elapsed).2.index < p.lastIndex := by
  induction elapsed generalizing s with
  | nil => exact absurd rfl hne
  | cons e later ih =>
    cases later with
    | nil => exact index_lt_of_tick h
    | cons e' later => exact ih (List.cons_ne_nil _ _) h

theorem Reachable.underway (h : Reachable p s) (hplaying : s.playing = true) : Underway p s where
  placed := h.placed
  isSpeed := h.isSpeed
  atRest hpaused := absurd (hplaying.symm.trans hpaused) (by decide)

end

end Milling.Playback
