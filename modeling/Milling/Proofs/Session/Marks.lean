import Mathlib.Data.List.DropRight
import Milling.Proofs.Scene.Status
import Milling.Proofs.Session.Consistent
/-!
The marks of a session.

A session keeps the last two of the positions marked since marks were last removed, in the order in
which they were marked (`Session.Recalls`). A label is to tell how many marks came before, but what
is counted are the marks that are still there, and these are never more than two: from the third
mark on the label stays the same. So the marks can be told apart exactly as long as no more than
three were made (`Kept.marks_performAll`).
-/

namespace Milling

theorem map_rtake {α β : Type} (f : α → β) (xs : List α) (n : Nat) :
    (xs.rtake n).map f = (xs.map f).rtake n := by
  unfold List.rtake
  rw [List.map_drop, List.length_map]

namespace Action

def isClearing : Action → Bool
  | .clearMarks => true
  | _ => false

def isMarking : Action → Bool
  | .markHere => true
  | _ => false

/-- The action brings a mark with a label of its own. -/
def isAdding : Action → Bool
  | .addMark _ => true
  | _ => false

end Action

/-! ### Labels -/

namespace Mark

/-- The label of the mark that comes after `n` others. -/
def labelAfter (n : Nat) : String :=
  "P" ++ toString (min n kept + 1)

/-- Labels stop changing when as many marks are counted as are kept. -/
theorem labelAfter_eq_iff {m n : Nat} :
    labelAfter m = labelAfter n ↔ min m kept = min n kept := by
  unfold labelAfter
  rw [String.append_right_inj]
  exact Nat.repr_inj.trans Nat.add_right_cancel_iff

/-- Of the labels of `n` marks the last ones differ up to the third mark. -/
theorem nodup_lastLabels_iff (n : Nat) :
    (((List.range n).map labelAfter).rtake kept).Nodup ↔ n ≤ 3 := by
  match n with
  | 0 => simp
  | 1 => exact iff_of_true (List.nodup_singleton _) (by omega)
  | n + 2 =>
    have hlast : ((List.range (n + 2)).map labelAfter).rtake kept =
        [labelAfter n, labelAfter (n + 1)] := by
      rw [List.range_succ, List.map_append, List.range_succ, List.map_append]
      change (_ ++ [labelAfter n] ++ [labelAfter (n + 1)]).rtake 2 = _
      rw [List.rtake_concat_succ, List.rtake_concat_succ, List.rtake_zero]
      rfl
    have hpair : [labelAfter n, labelAfter (n + 1)].Nodup ↔ min n kept ≠ min (n + 1) kept := by
      simp [labelAfter_eq_iff]
    rw [hlast, hpair]
    unfold kept
    omega

/-- Positions marked one after the other, with their labels. -/
def labelled (ps : List Point) : List Mark :=
  ps.zipIdx.map fun (p, n) => ⟨p, labelAfter n⟩

theorem labelled_concat (ps : List Point) (p : Point) :
    labelled (ps ++ [p]) = labelled ps ++ [⟨p, labelAfter ps.length⟩] := by
  simp [labelled, List.zipIdx_append]

theorem length_labelled (ps : List Point) : (labelled ps).length = ps.length := by
  simp [labelled]

theorem map_position_labelled (ps : List Point) : (labelled ps).map (·.position) = ps := by
  simp [labelled, Function.comp_def]

theorem map_label_labelled (ps : List Point) :
    (labelled ps).map (·.label) = (List.range ps.length).map labelAfter := by
  unfold labelled
  rw [List.map_map, List.range_eq_range', ← List.zipIdx_map_snd 0 ps, List.map_map]
  rfl

/-- The oldest of the kept marks goes when another comes. -/
theorem push_rtake (marks : List Mark) (mark : Mark) :
    push (marks.rtake kept) mark = (marks ++ [mark]).rtake kept := by
  have hlast : (marks ++ [mark]).rtake kept = marks.rtake 1 ++ [mark] :=
    List.rtake_concat_succ ..
  rw [hlast]
  unfold push List.rtake kept
  rw [List.length_drop]
  congr 1
  -- A mark is dropped only if there were as many as are kept; until then both sides have them all.
  split
  · rw [List.tail_drop]
    congr 1
    omega
  · congr 1
    omega

/-- The next label counts the kept marks, and so no more of the earlier ones than are kept. -/
theorem nextLabel_rtake (ps : List Point) :
    nextLabel ((labelled ps).rtake kept) = labelAfter ps.length := by
  have hlength : ((labelled ps).rtake kept).length = min ps.length kept := by
    unfold List.rtake
    rw [List.length_drop, length_labelled]
    omega
  unfold nextLabel labelAfter
  rw [hlength]

end Mark

namespace Session

/-! ### One action -/

/-- The position that an action marks. -/
def marked? (s : Session) : Action → Option Point
  | .markHere => (s.program.point? s.playback.index).map (·.position)
  | _ => none

/-- The session keeps the last of some positions marked one after the other. -/
def Recalls (s : Session) (ps : List Point) : Prop :=
  s.marks = (Mark.labelled ps).rtake Mark.kept

section Step

variable {s : Session} {a : Action} {ps : List Point}

theorem marked?_of_not_isMarking (hmark : a.isMarking = false) : s.marked? a = none := by
  cases a with
  | markHere => cases hmark
  | _ => rfl

/-- A mark at the current point is the last that is recalled. -/
theorem Recalls.markHere (h : s.Recalls ps) :
    s.markHere.Recalls (ps ++ (s.marked? .markHere).toList) := by
  unfold Session.markHere marked?
  cases s.program.point? s.playback.index with
  | none => simpa using h
  | some point =>
    change Mark.push s.marks ⟨point.position, Mark.nextLabel s.marks⟩ =
      (Mark.labelled (ps ++ [point.position])).rtake Mark.kept
    rw [Mark.labelled_concat, ← Mark.push_rtake, h, Mark.nextLabel_rtake]

/-- Wherever the tool is, there is a point to mark. -/
theorem Consistent.isSome_marked? (h : s.Consistent) (a : Action) :
    (s.marked? a).isSome = a.isMarking := by
  cases a with
  | markHere =>
    obtain ⟨t, ht⟩ := Status.exists_point? s.preferences.program s.playback.index
    rw [← h.program, min_eq_left h.index] at ht
    unfold marked?
    rw [ht]
    rfl
  | _ => rfl

end Step

/-! ### What was done -/

/-- What was done after marks were last removed. -/
def sinceClearing (history : List (Session × Action)) : List (Session × Action) :=
  history.rtakeWhile fun e => !e.2.isClearing

/-- The positions that were marked, from first to last. -/
def markedIn (history : List (Session × Action)) : List Point :=
  history.filterMap fun e => e.1.marked? e.2

theorem markedIn_concat (history : List (Session × Action)) (s : Session) (a : Action) :
    markedIn (history ++ [(s, a)]) = markedIn history ++ (s.marked? a).toList := by
  unfold markedIn
  rw [List.filterMap_append]
  cases hmarked : s.marked? a <;> simp [hmarked]

namespace Kept

variable {σ : Type} [KeyStore σ] {k : Kept σ} {a : Action} {ps : List Point}

/-- The other actions leave the marks alone. -/
theorem marks_perform (hclear : a.isClearing = false) (hmark : a.isMarking = false)
    (hadd : a.isAdding = false) : (k.perform a).2.session.marks = k.session.marks := by
  cases a with
  | clearMarks => cases hclear
  | markHere => cases hmark
  | addMark mark => cases hadd
  | loadTemplate id =>
    simp only [perform]
    cases Template.find? id <;> rfl
  | setSpeed speed =>
    simp only [perform]
    cases k.session.playback.setSpeed speed <;> rfl
  | setToolDiameter diameter =>
    simp only [perform]
    split <;> rfl
  | _ => rfl

/-- An action leaves the last of the positions marked so far, its own among them. -/
theorem recalls_perform (h : k.session.Recalls ps) (hclear : a.isClearing = false)
    (hadd : a.isAdding = false) :
    (k.perform a).2.session.Recalls (ps ++ (k.session.marked? a).toList) := by
  cases hmark : a.isMarking with
  | true =>
    cases a with
    | markHere => exact h.markHere
    | _ => cases hmark
  | false =>
    rw [marked?_of_not_isMarking hmark, Option.toList_none, List.append_nil]
    exact (marks_perform hclear hmark hadd).trans h

/-! ### Any actions -/

/-- Some actions from first to last, each with the session in which it is taken. -/
def history (k : Kept σ) : List Action → List (Session × Action)
  | [] => []
  | a :: rest => (k.session, a) :: (k.perform a).2.history rest

theorem history_concat (k : Kept σ) (actions : List Action) (a : Action) :
    k.history (actions ++ [a]) = k.history actions ++ [((k.performAll actions).session, a)] := by
  induction actions generalizing k with
  | nil => rfl
  | cons first rest ih => exact congrArg ((k.session, first) :: ·) (ih (k.perform first).2)

theorem performAll_concat (k : Kept σ) (actions : List Action) (a : Action) :
    k.performAll (actions ++ [a]) = ((k.performAll actions).perform a).2 :=
  List.foldl_concat ..

theorem consistent_of_mem_history (h : k.session.Consistent) {actions : List Action}
    {e : Session × Action} (he : e ∈ k.history actions) : e.1.Consistent := by
  induction actions generalizing k with
  | nil => cases he
  | cons a rest ih =>
    rcases List.mem_cons.mp he with rfl | he
    · exact h
    · exact ih (consistent_perform h a) he

/-- The induction is on the last action: it removes what is recalled or adds to it. -/
theorem recalls_performAll (hstart : k.session.marks = []) {actions : List Action}
    (hadd : ∀ e ∈ sinceClearing (k.history actions), e.2.isAdding = false) :
    (k.performAll actions).session.Recalls (markedIn (sinceClearing (k.history actions))) := by
  induction actions using List.reverseRecOn with
  | nil => exact hstart
  | append_singleton actions a ih =>
    rw [performAll_concat]
    cases hclear : a.isClearing with
    | true =>
      have hsince : sinceClearing (k.history (actions ++ [a])) = [] := by
        rw [history_concat]
        exact List.rtakeWhile_concat_neg _ _ _ (by simp [hclear])
      rw [hsince]
      cases a with
      | clearMarks => rfl
      | _ => cases hclear
    | false =>
      have hsince : sinceClearing (k.history (actions ++ [a])) =
          sinceClearing (k.history actions) ++ [((k.performAll actions).session, a)] := by
        rw [history_concat]
        exact List.rtakeWhile_concat_pos _ _ _ (by simp [hclear])
      rw [hsince] at hadd ⊢
      have hearlier := ih fun e he => hadd e (List.mem_append_left _ he)
      have hlast := hadd _ (List.mem_append_right _ List.mem_cons_self)
      rw [markedIn_concat]
      exact recalls_perform hearlier hclear hlast

/-- Every request for a mark since marks were last removed left one. -/
theorem length_markedIn (h : k.session.Consistent) (actions : List Action) :
    (markedIn (sinceClearing (k.history actions))).length =
      (sinceClearing (k.history actions)).countP (·.2.isMarking) := by
  unfold markedIn
  rw [List.length_filterMap_eq_countP]
  refine List.countP_congr fun e he => ?_
  have hmem : e ∈ k.history actions := (List.rtakeWhile_suffix _ _).subset he
  rw [(consistent_of_mem_history h hmem).isSome_marked?]

/-- The marks of a session are the last two positions that were marked since marks were last
removed, each request for a mark having left one. Their labels go by the count of the marks before,
which stops at two, and so they differ if and only if no more than three were made. -/
theorem marks_performAll (store : σ) (actions : List Action)
    (hadd : ∀ e ∈ sinceClearing ((load store).history actions), e.2.isAdding = false) :
    let since := sinceClearing ((load store).history actions)
    let marks := ((load store).performAll actions).session.marks
    (markedIn since).length = since.countP (·.2.isMarking) ∧
      marks.map (·.position) = (markedIn since).rtake 2 ∧
      marks.map (·.label) =
        ((List.range (markedIn since).length).map fun n => "P" ++ toString (min n 2 + 1)).rtake 2 ∧
      ((marks.map (·.label)).Nodup ↔ (markedIn since).length ≤ 3) := by
  intro since marks
  have hconsistent : (load store).session.Consistent :=
    consistent_start (Snapshot.isPositive_speed_load store)
  have hmarks : marks = (Mark.labelled (markedIn since)).rtake Mark.kept :=
    recalls_performAll rfl hadd
  have hlabels : marks.map (·.label) =
      ((List.range (markedIn since).length).map Mark.labelAfter).rtake Mark.kept := by
    rw [hmarks, map_rtake, Mark.map_label_labelled]
  refine ⟨length_markedIn hconsistent actions, ?_, hlabels, ?_⟩
  · rw [hmarks, map_rtake, Mark.map_position_labelled]
    rfl
  · rw [hlabels]
    exact Mark.nodup_lastLabels_iff _

/-- Marks that were removed, and one that came with a label before, leave no trace. -/
theorem marks_performAll_threeMarks :
    let actions : List Action := [.setProgram "G0 X3\nG0 X3 Y4", .addMark ⟨⟨1.0, 0.0, 0.0⟩, "P3"⟩,
      .markHere, .clearMarks, .markHere, .seek 1, .markHere, .tick 0.5, .seek 2, .markHere]
    let since := sinceClearing ((load MemoryStore.empty).history actions)
    let marks := ((load MemoryStore.empty).performAll actions).session.marks
    (∀ e ∈ since, e.2.isAdding = false) ∧ (markedIn since).length = 3 ∧
      marks.map (·.label) = ["P2", "P3"] ∧ (marks.map (·.label)).Nodup := by
  intro actions since marks
  have hadd : ∀ e ∈ since, e.2.isAdding = false := by decide +kernel
  have hlength : (markedIn since).length = 3 := by decide +kernel
  obtain ⟨-, -, hlabels, hnodup⟩ := marks_performAll MemoryStore.empty actions hadd
  refine ⟨hadd, hlength, ?_, hnodup.mpr hlength.le⟩
  rw [hlabels, hlength]
  decide +kernel

/-- The third and the fourth of four marks at three points have the same label. -/
theorem not_nodup_labels_fourMarks :
    let actions : List Action := [.setProgram "G0 X3\nG0 X3 Y4", .markHere, .markHere, .seek 1,
      .markHere, .seek 2, .markHere]
    let marks := ((load MemoryStore.empty).performAll actions).session.marks
    (marks == [⟨⟨3.0, 0.0, 0.0⟩, "P3"⟩, ⟨⟨3.0, 4.0, 0.0⟩, "P3"⟩]) = true ∧
      ¬ (marks.map (·.label)).Nodup := by
  decide +kernel

end Kept

end Session

end Milling
