import Milling.Simulation
import Milling.Proofs.Binary64.Sum
import Milling.Proofs.Json.Number
import Milling.Proofs.Playback.Ticks
import Milling.Proofs.Program.Steps
/-!
Simulations and what they end with.

The simulation works out the duration of a segment once and spends the frames that change nothing at
once. `Simulation.frames` has none of this: it is one tick after the other, and `run_eq_frames` says
that both play the same. What is known of ticks then holds of simulations.
-/

namespace Milling.Simulation

open Binary64 Playback

/-! ### Progress within a segment -/

/-- Progress that a sum of gains can be: zero, but not the negative zero, or above zero. -/
def Settled (x : Float) : Prop :=
  x = 0.0 ∨ isPositive x = true

theorem Settled.value {x : Float} (h : Settled x) : ∃ a, value? x = some a ∧ 0 ≤ a := by
  rcases h with rfl | hpos
  · exact ⟨0, value_zero, le_rfl⟩
  · obtain ⟨a, ha, hpos⟩ := (isPositive_iff x).mp hpos
    exact ⟨a, ha, hpos.le⟩

/-- A gain that leaves the value leaves the double. -/
theorem Settled.add_eq {x gain : Float} (h : Settled x) (hsame : (x + gain == x) = true) :
    x + gain = x := by
  rcases h with rfl | hpos
  · have hsum : value? (0.0 + gain) = some 0 := (beq_iff_value value_zero).mp hsame
    obtain ⟨b, hb⟩ := (isFinite_iff gain).mp
      (isFinite_of_add (isFinite_of_value value_zero) (isFinite_of_value hsum))
    have hzero : b = 0 := by
      by_contra hne
      rw [zero_add_of_value value_zero hb hne, hb] at hsum
      exact hne (Option.some.inj hsum)
    obtain ⟨t, hu⟩ := unpack_of_value_zero (hzero ▸ hb)
    have hadd : (0.0 + gain).toModel = Float.Model.pack (.zero .positive) := by
      rw [toModel_add, unpack_zero, hu]
      cases t <;> rfl
    apply eq_of_unpack
    rw [hadd, toModel_zero]
  · obtain ⟨a, ha, hpos⟩ := (isPositive_iff x).mp hpos
    exact eq_of_value_pos ((beq_iff_value ha).mp hsame) ha hpos

/-- Adding a gain leaves progress that a sum of gains can be. -/
theorem Settled.add {x gain : Float} (h : Settled x) (hgain : ¬ gain < 0.0) (hbelow : x + gain < 1.0)
    (hmove : ¬ (x + gain == x) = true) : Settled (x + gain) := by
  obtain ⟨a, ha, hnonneg⟩ := h.value
  have hx : ¬ x < 0.0 := by
    rw [lt_iff_of_value ha value_zero]
    exact hnonneg.not_gt
  have hleast : 0.0 ≤ x + gain := zero_le_of_not_lt (not_add_lt_zero hx hgain) hbelow
  have hsum : (x + gain).isFinite = true :=
    isFinite_of_le_of_le (by decide +kernel) (by decide +kernel) hleast (le_of_less hbelow)
  obtain ⟨b, hb⟩ := (isFinite_iff gain).mp (isFinite_of_add (isFinite_of_value ha) hsum)
  rw [lt_iff_of_value hb value_zero, not_lt] at hgain
  have hvalue := ((isNearest_add ha hb).value_of_isFinite hsum).1
  have hle : a ≤ rounded (a + b) := (onGrid_of_value ha).le_rounded (by linarith)
  rw [beq_iff_of_value hvalue ha] at hmove
  have hlt : 0 < rounded (a + b) := hnonneg.trans_lt (lt_of_le_of_ne hle (Ne.symm hmove))
  exact Or.inr ((isPositive_iff _).mpr ⟨_, hvalue, hlt⟩)

/-! ### Frame by frame -/

/-- Plays at most `left` frames, one after the other, until playback pauses. Returns the frames that
are left and the state. -/
def frames (p : Program) (elapsed : Float) : Nat → Playback → Nat × Playback
  | 0, s => (0, s)
  | left + 1, s =>
    if s.playing then frames p elapsed left (s.tick p elapsed).2 else (left + 1, s)

section

variable {p : Program} {elapsed : Float} {s : Playback}

theorem frames_succ (hplaying : s.playing = true) (left : Nat) :
    frames p elapsed (left + 1) s = frames p elapsed left (s.tick p elapsed).2 := by
  rw [frames, if_pos hplaying]

theorem frames_of_paused (h : s.playing = false) (left : Nat) :
    frames p elapsed left s = (left, s) := by
  cases left with
  | zero => rfl
  | succ left => rw [frames, h, if_neg Bool.false_ne_true]

/-- A tick that changes nothing is followed by nothing else. -/
theorem frames_of_still (hplaying : s.playing = true) (h : (s.tick p elapsed).2 = s) (left : Nat) :
    frames p elapsed left s = (0, s) := by
  induction left with
  | zero => rfl
  | succ left ih => rw [frames_succ hplaying, h, ih]

/-- Before the last point a tick is an advance on the current segment. -/
theorem tick_eq_advance (hplaying : s.playing = true) (hbefore : s.index < p.lastIndex) :
    s.tick p elapsed =
      s.advance p.lastIndex (Timing.duration p s.index (s.index + 1)) elapsed := by
  have hend : ¬ s.atEnd p = true := by simpa [atEnd] using hbefore
  rw [tick, if_neg (by simp [hplaying]), if_neg hend]

theorem not_gain_lt_zero (hspeed : IsSpeed s.speed) :
    ¬ usable elapsed * s.speed / Timing.duration p s.index (s.index + 1) < 0.0 :=
  not_div_lt_zero (not_mul_lt_zero (not_usable_lt_zero elapsed) hspeed.not_lt_zero)
    (Timing.zero_lt_duration p _ _)

/-! ### Gliding along a segment -/

/-- The frame that ends a glide completes the segment. -/
theorem not_lt_of_glide {gain progress final : Float} {left k : Nat}
    (h : glide gain left progress = (k + 1, final)) : ¬ final + gain < 1.0 := by
  induction left generalizing progress with
  | zero => cases h
  | succ left ih =>
    unfold glide at h
    dsimp only at h
    split_ifs at h with hbelow hsame
    · cases h
    · exact ih h
    · cases h
      exact hbelow

/-- A glide is as many frames of which none completes the segment. -/
theorem frames_glide (elapsed : Float) {gain : Float} (hplaying : s.playing = true)
    (hbefore : s.index < p.lastIndex) (hspeed : IsSpeed s.speed)
    (hgain : usable elapsed * s.speed / Timing.duration p s.index (s.index + 1) = gain)
    (left : Nat) {progress : Float} (hprogress : Settled progress) :
    frames p elapsed left { s with progress } =
      frames p elapsed (glide gain left progress).1
        { s with progress := (glide gain left progress).2 } := by
  induction left generalizing progress with
  | zero => rfl
  | succ left ih =>
    have htick : progress + gain < 1.0 →
        (tick { s with progress } p elapsed).2 = { s with progress := progress + gain } := by
      intro hbelow
      rw [tick_eq_advance (s := { s with progress }) hplaying hbefore, advance]
      dsimp only
      rw [hgain, if_pos hbelow]
    unfold glide
    dsimp only
    split_ifs with hbelow hsame
    · have hstill := htick hbelow
      rw [hprogress.add_eq hsame] at hstill
      rw [frames_of_still (s := { s with progress }) hplaying hstill, frames]
    · rw [frames_succ (s := { s with progress }) hplaying, htick hbelow]
      exact ih (hprogress.add (hgain ▸ not_gain_lt_zero hspeed) hbelow hsame)
    · rfl

/-! ### The whole run -/

/-- One induction on the segments that are left: each is a glide and the frame that completes it. -/
theorem run_eq_frames {segments : Nat} (hprogress : Settled s.progress) (hspeed : IsSpeed s.speed)
    (hindex : s.index ≤ p.lastIndex) (hsegments : p.lastIndex < s.index + segments) (left : Nat) :
    run p elapsed segments left s = frames p elapsed left s := by
  induction segments generalizing left s with
  | zero => omega
  | succ segments ih =>
    unfold run
    by_cases hpaused : s.playing = false
    · rw [if_pos (by simp [hpaused]), frames_of_paused hpaused]
    have hplaying : s.playing = true := by simpa using hpaused
    cases left with
    | zero => rfl
    | succ left =>
      rw [if_neg (by simp [hplaying])]
      by_cases hend : s.atEnd p = true
      · have htick : s.tick p elapsed = (false, s.pause) := by
          rw [tick, if_neg (by simp [hplaying]), if_pos hend]
        rw [if_pos hend, frames_succ hplaying, htick, frames_of_paused rfl, Nat.add_sub_cancel]
      rw [if_neg hend]
      have hbefore : s.index < p.lastIndex := by simpa [atEnd] using hend
      have hframes := frames_glide elapsed hplaying hbefore hspeed rfl (left + 1) hprogress
      dsimp only at hframes ⊢
      cases hglide : glide (usable elapsed * s.speed / Timing.duration p s.index (s.index + 1))
        (left + 1) s.progress with | mk rest final =>
      rw [hglide] at hframes
      rw [hframes]
      cases rest with
      | zero => rfl
      | succ rest =>
        have hover := not_lt_of_glide hglide
        dsimp only
        rw [frames_succ (s := { s with progress := final }) hplaying,
          tick_eq_advance (s := { s with progress := final }) hplaying hbefore, advance]
        dsimp only
        rw [if_neg hover]
        refine ih ?_ ?_ ?_ ?_ rest
        · exact Or.inl rfl
        · exact hspeed
        · exact hbefore
        · dsimp only
          omega

/-- The state after a count of frames, whether or not playback has paused by then. -/
def after (p : Program) (elapsed : Float) (s : Playback) (count : Nat) : Playback :=
  (s.ticks p (List.replicate count elapsed)).2

theorem after_succ (count : Nat) :
    after p elapsed s (count + 1) = after p elapsed (s.tick p elapsed).2 count := rfl

/-- Frames are ticks, and they end with the first that leaves playback paused. -/
theorem frames_eq_after (p : Program) (elapsed : Float) (left : Nat) (s : Playback) :
    ∃ count ≤ left, frames p elapsed left s = (left - count, after p elapsed s count) ∧
      (∀ n < count, (after p elapsed s n).playing = true) ∧
      (count = left ∨ (after p elapsed s count).playing = false) := by
  induction left generalizing s with
  | zero => exact ⟨0, le_rfl, rfl, fun n hn => absurd hn n.not_lt_zero, Or.inl rfl⟩
  | succ left ih =>
    by_cases hplaying : s.playing = true
    · obtain ⟨count, hle, hframes, hbefore, hend⟩ := ih (s.tick p elapsed).2
      refine ⟨count + 1, Nat.succ_le_succ hle, ?_, ?_, ?_⟩
      · rw [frames_succ hplaying, hframes, Nat.add_sub_add_right, after_succ]
      · intro n hn
        cases n with
        | zero => exact hplaying
        | succ n => exact hbefore n (Nat.lt_of_succ_lt_succ hn)
      · exact hend.imp (congrArg Nat.succ) id
    · have hpaused : s.playing = false := by simpa using hplaying
      exact ⟨0, Nat.zero_le _, frames_of_paused hpaused _, fun n hn => absurd hn n.not_lt_zero,
        Or.inr hpaused⟩

/-! ### Where a simulation ends -/

/-- At the last point the tool has come to rest. -/
theorem position_of_atRest (h : AtRest p s) (hne : 0 < p.size) :
    p.toolpath.back?.map (·.position) = some (s.position p) := by
  have hlast : p.point? s.index = p.toolpath.back? := by
    rw [h.index, Program.point?, Array.back?]
    rfl
  have hover : p.point? (s.index + 1) = none := by
    rw [h.index]
    exact Array.getElem?_eq_none (by unfold Program.lastIndex Program.size at *; omega)
  rw [position, hover, hlast]
  cases hback : p.toolpath.back? with
  | none =>
    rw [Array.back?_eq_none_iff] at hback
    rw [Program.size, hback] at hne
    exact absurd hne (lt_irrefl 0)
  | some point => rfl

/-- At the last point all of a program that moves lies behind the tool. -/
theorem percent_of_atRest (h : AtRest p s) (hmoves : 1 < p.size) (hword : p.size < wordBound) :
    s.percent p = 100.0 := by
  have hpos : 0 < p.lastIndex := by
    unfold Program.lastIndex
    omega
  obtain ⟨hvalue, -⟩ := Json.value?_ofNat (n := p.lastIndex) (by unfold Program.lastIndex; omega)
  have hleast : (2 : ℚ) ^ (0 : ℤ) ≤ p.lastIndex := by exact_mod_cast hpos
  have hne : rounded p.lastIndex ≠ 0 := by
    have hone := (onGrid_two_zpow (by decide)).le_rounded hleast
    rw [zpow_zero] at hone
    linarith
  have hquot : Float.ofNat p.lastIndex / Float.ofNat p.lastIndex = 1.0 := by
    have hdiv := isNearest_div hvalue hvalue hne
    rw [div_self hne] at hdiv
    have hround : rounded 1 = 1 := (onGrid_of_value value_one).rounded_eq
    rw [IsNearest, hround, if_pos (abs_lt_limit value_one)] at hdiv
    exact eq_of_value_pos hdiv value_one one_pos
  have hfull : (1.0 * 100.0 : Float) = 100.0 := by decide +kernel
  rw [percent, if_neg hpos.ne', h.index, min_self, hquot, hfull]

/-- What holds after a run of playback: `reached` points were reached and the state is `t`. -/
structure RunsTo (p : Program) (s : Playback) (elapsed : List Float) (reached : Nat) (t : Playback) :
    Prop where
  index : t.index = s.index + reached
  /-- The next tick moves on by one point or by none, and stands at a point it has just reached. -/
  next (e : Float) : (t.tick p e).2.index = t.index + (t.tick p e).1.toNat ∧
    ((t.tick p e).1 = true → (t.tick p e).2.progress = 0.0)
  paused : t.playing = false → AtRest p t ∧ ∀ later, t.ticks p later = (0, t)
  playing : elapsed ≠ [] → t.playing = true → t.index < p.lastIndex

/-- What holds of the outcome of a simulation. -/
structure EndsWith (p : Program) (speed elapsed : Float) (o : Outcome) : Prop where
  frames_le : o.frames ≤ frameLimit
  state : o.state = after p elapsed (ofSpeed speed).play o.frames
  playing : ∀ n < o.frames, (after p elapsed (ofSpeed speed).play n).playing = true
  ended : o.frames = frameLimit ∨ o.state.playing = false
  position : o.frames < frameLimit ∨ o.state.playing = false →
    p.toolpath.back?.map (·.position) = some (o.state.position p)
  percent : o.frames < frameLimit ∨ o.state.playing = false → 1 < p.size → p.size < wordBound →
    o.state.percent p = 100.0

/-- Time in any portions is a run of playback. -/
theorem runsTo_ticks (h : Underway p s) (elapsed : List Float) :
    RunsTo p s elapsed (s.ticks p elapsed).1 (s.ticks p elapsed).2 where
  index := index_ticks s elapsed
  next e := ⟨index_tick p _ e, progress_tick⟩
  paused hpaused := ⟨(h.ticks elapsed).atRest hpaused, ticks_of_paused hpaused⟩
  playing := index_lt_of_ticks

/-- A simulation ends as it should, at any speed and with frames of any length. -/
theorem endsWith_play (p : Program) (hne : 0 < p.size) (speed elapsed : Float) :
    EndsWith p speed elapsed (play p speed elapsed) := by
  have hstart : Underway p (ofSpeed speed).play :=
    (Reachable.serve .play (Reachable.ofSpeed speed)).underway rfl
  have hrun : run p elapsed (p.lastIndex + 1) frameLimit (ofSpeed speed).play =
      frames p elapsed frameLimit (ofSpeed speed).play :=
    run_eq_frames (Or.inl rfl) hstart.isSpeed (Nat.zero_le _)
      (Nat.lt_add_left _ (Nat.lt_succ_self _)) frameLimit
  obtain ⟨count, hle, hframes, hbefore, hend⟩ :=
    frames_eq_after p elapsed frameLimit (ofSpeed speed).play
  have hplay : play p speed elapsed = ⟨count, after p elapsed (ofSpeed speed).play count⟩ := by
    rw [play, hrun, hframes]
    dsimp only
    rw [Nat.sub_sub_self hle]
  have hrest : count < frameLimit ∨ (after p elapsed (ofSpeed speed).play count).playing = false →
      AtRest p (after p elapsed (ofSpeed speed).play count) := by
    intro h
    refine (hstart.ticks _).atRest ?_
    rcases h with hlt | hpaused
    · exact hend.resolve_left hlt.ne
    · exact hpaused
  rw [hplay]
  exact
    { frames_le := hle
      state := rfl
      playing := hbefore
      ended := hend
      position := fun h => position_of_atRest (hrest h) hne
      percent := fun h => percent_of_atRest (hrest h) }

end

open Program (size_compile_pos)

/-- Playback runs to the last point of a compiled program and pauses nowhere else, under any clock;
a simulation is such a run, and unless it is given up it ends there with the whole toolpath behind
the tool. The start alone is no motion, and a count of points is a machine word. -/
theorem plays_to_last_point (source : String) {s : Playback}
    (hs : Reachable (Program.compile source) s) (hplaying : s.playing = true)
    (elapsed : List Float) (speed frame : Float) :
    RunsTo (Program.compile source) s elapsed (s.ticks (Program.compile source) elapsed).1
        (s.ticks (Program.compile source) elapsed).2 ∧
      EndsWith (Program.compile source) speed frame (play (Program.compile source) speed frame) :=
  ⟨runsTo_ticks (hs.underway hplaying) elapsed,
    endsWith_play _ (size_compile_pos source) speed frame⟩

/-- A segment that takes six tenths of a second, under a clock that also shows what no clock
should. -/
theorem plays_to_last_point_of_segment :
    let p := Program.compile "G1 X5"
    let elapsed := [0.25, 0.0 / 0.0, -1.0, 1.0 / 0.0, 0.25, 0.25]
    (Reachable p initial.play ∧ initial.play.playing = true) ∧
      (RunsTo p initial.play elapsed (initial.play.ticks p elapsed).1
          (initial.play.ticks p elapsed).2 ∧
        EndsWith p 1.0 0.25 (play p 1.0 0.25)) ∧
      (initial.play.ticks p elapsed).1 = 1 ∧ (play p 1.0 0.25).frames = 3 := by
  intro p elapsed
  have hreach : Reachable p initial.play := .serve .play .initial
  refine ⟨⟨hreach, rfl⟩, plays_to_last_point "G1 X5" hreach rfl elapsed 1.0 0.25, ?_, ?_⟩
  · decide +kernel
  · decide +kernel

end Milling.Simulation
