import Milling.Proofs.Binary64.Order
import Milling.Proofs.Binary64.Sign
import Milling.Timing
/-!
How long a segment takes, whatever the program is.

A feed rate is above zero, but its sixtieth may vanish, and the distance may be infinite or no
number. Their quotient is then infinite or no number as well. The least duration absorbs the latter,
so what playback divides by is a number that is at least as great (`timing_sound`).
-/

namespace Milling.Timing

open Binary64

/-! ### Feed rates -/

/-- Feed rates are above zero, whatever a command gives. -/
theorem zero_lt_feedRate (command : Option Command) (kind : MoveKind) :
    0.0 < feedRate command kind := by
  have hrapid : 0.0 < rapidFeed := by decide +kernel
  have hdefault : 0.0 < defaultFeed := by decide +kernel
  cases kind with
  | rapid => exact hrapid
  | cutting =>
    change 0.0 < ((command.bind (·.feed)).filter (· > 0.0)).getD defaultFeed
    cases hfeed : (command.bind (·.feed)).filter (· > 0.0) with
    | none => exact hdefault
    | some feed => exact of_decide_eq_true (Option.filter_eq_some_iff.mp hfeed).2

theorem isNaN_feedRate (command : Option Command) (kind : MoveKind) :
    (feedRate command kind).isNaN = false :=
  (isNaN_of_le (le_of_less (zero_lt_feedRate command kind))).2

/-! ### Durations -/

theorem isFinite_leastDuration : leastDuration.isFinite = true := by decide +kernel

section Duration

variable (p : Program) (start finish : Nat)

/-- No segment takes less than the least time. -/
theorem least_le_duration : leastDuration ≤ duration p start finish := by
  have hmissing : leastDuration ≤ missingDuration := by decide +kernel
  unfold duration
  split
  · exact le_greater_right _ isFinite_leastDuration
  · exact hmissing

/-- The time of a segment is a number, also between points that are not finite. -/
theorem isNaN_duration : (duration p start finish).isNaN = false :=
  (isNaN_of_le (least_le_duration p start finish)).2

theorem zero_lt_duration : 0.0 < duration p start finish := by
  have hleast : 0.0 < leastDuration := by decide +kernel
  exact zero_lt_of_le hleast (least_le_duration p start finish)

/-- A segment with a point beyond the toolpath takes the time of a missing one. -/
theorem duration_of_missing (h : p.size ≤ start ∨ p.size ≤ finish) :
    duration p start finish = missingDuration := by
  unfold duration
  split
  · rename_i a b hstart hfinish
    have hstart := (Array.getElem?_eq_some_iff.mp hstart).1
    have hfinish := (Array.getElem?_eq_some_iff.mp hfinish).1
    rcases h with h | h
    · exact absurd hstart (Nat.not_lt_of_le h)
    · exact absurd hfinish (Nat.not_lt_of_le h)
  · rfl

end Duration

/-- Only the toolpath counts for a rapid move. -/
theorem duration_of_rapid {p q : Program} {start finish : Nat} {b : ToolPoint}
    (hpath : q.toolpath = p.toolpath) (hb : p.point? finish = some b) (hkind : b.kind = .rapid) :
    duration q start finish = duration p start finish := by
  have hpoint : ∀ i, q.point? i = p.point? i := fun i => congrArg (·[i]?) hpath
  unfold duration
  rw [hpoint, hpoint, hb]
  cases p.point? start with
  | none => rfl
  | some a =>
    dsimp only
    rw [hkind]
    rfl

/-- The timing of a program is by numbers above zero. -/
structure Sound (p : Program) : Prop where
  feed : ∀ command kind, 0.0 < feedRate command kind ∧ (feedRate command kind).isNaN = false
  number : ∀ i j, (duration p i j).isNaN = false
  least : ∀ i j, 0.01 ≤ duration p i j
  positive : ∀ i j, 0.0 < duration p i j
  missing : ∀ i j, p.size ≤ i ∨ p.size ≤ j → duration p i j = 0.1
  /-- Other commands with other feed rates change nothing for a rapid move. -/
  rapid : ∀ (q : Program) (i j : Nat) (b : ToolPoint), q.toolpath = p.toolpath →
    p.point? j = some b → b.kind = .rapid → duration q i j = duration p i j

/-- The timing of every program is sound, of those that were not compiled too. -/
theorem timing_sound (p : Program) : Sound p where
  feed command kind := ⟨zero_lt_feedRate command kind, isNaN_feedRate command kind⟩
  number := isNaN_duration p
  least := least_le_duration p
  positive := zero_lt_duration p
  missing := duration_of_missing p
  rapid _ _ _ _ := duration_of_rapid

end Milling.Timing
