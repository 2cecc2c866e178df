import Milling.Proofs.Session.Consistent
import Milling.Proofs.Session.Persist
/-!
The store follows the session.

As long as no action was kept, preferences and store are those of the start. From the first kept
action on, the store is the initial one with the text of the current preferences under its key,
whatever is done in between (`Kept.store_performAll`): no kept action forgets to write, and no other
action changes what would have to be written.
-/

namespace Milling

/-- Of two texts under one key the store knows the later. -/
theorem MemoryStore.set_set (s : MemoryStore) (key first second : String) :
    (s.set key first).set key second = s.set key second := by
  unfold set
  simp

namespace Action

/-- The action moves the tool or lets it move. -/
def isTransport : Action → Bool
  | .play | .pause | .toggle | .stop | .stepForward | .stepBackward => true
  | .seek _ | .seekFraction _ | .tick _ => true
  | _ => false

def isMeasuring : Action → Bool
  | .setMeasuring _ | .addMark _ | .markHere | .clearMarks => true
  | _ => false

def isCollision : Action → Bool
  | .setColliding _ => true
  | _ => false

/-- Every action is of one of four kinds. -/
theorem isKept_eq (a : Action) :
    a.isKept = !(a.isTransport || a.isMeasuring || a.isCollision) := by
  cases a <;> rfl

end Action

namespace Session

namespace Kept

/-- One of the actions, from first to last, is kept. -/
def keepsAny {σ : Type} [KeyStore σ] (k : Kept σ) : List Action → Bool
  | [] => false
  | a :: rest => k.keeps a || (k.perform a).2.keepsAny rest

/-! ### Any actions -/

/-- The store is an earlier one with the text of the current preferences under its key. -/
def Follows (store : MemoryStore) (k : Kept MemoryStore) : Prop :=
  k.store = store.set Snapshot.key (Json.write k.session.preferences)

section Run

variable {store : MemoryStore} {k : Kept MemoryStore} {a : Action}

/-- A kept action writes to the store itself or over what was written before. -/
theorem follows_of_keeps (h : k.store = store ∨ k.Follows store) (hkeeps : k.keeps a = true) :
    (k.perform a).2.Follows store := by
  have hstore := (k.perform_keeps a).1 hkeeps
  change (k.perform a).2.store =
    k.store.set Snapshot.key (Json.write (k.perform a).2.session.preferences) at hstore
  unfold Follows
  rw [hstore]
  -- What was written before is under the same key, so writing again leaves nothing of it.
  rcases h with rfl | hfollows
  · rfl
  · rw [hfollows, MemoryStore.set_set]

/-- Once the store follows the session, it does after every action. -/
theorem Follows.perform (h : k.Follows store) (a : Action) : (k.perform a).2.Follows store := by
  cases hkeeps : k.keeps a with
  | true => exact follows_of_keeps (Or.inr h) hkeeps
  | false =>
    obtain ⟨hstore, hpreferences⟩ := (k.perform_keeps a).2 hkeeps
    unfold Follows
    rw [hstore, hpreferences]
    exact h

theorem Follows.performAll (h : k.Follows store) (actions : List Action) :
    (k.performAll actions).Follows store := by
  induction actions generalizing k with
  | nil => exact h
  | cons a rest ih => exact ih (h.perform a)

/-- As long as nothing is kept, neither the preferences nor the store change. -/
theorem performAll_of_not_keepsAny {actions : List Action} (h : k.keepsAny actions = false) :
    (k.performAll actions).session.preferences = k.session.preferences ∧
      (k.performAll actions).store = k.store := by
  induction actions generalizing k with
  | nil => exact ⟨rfl, rfl⟩
  | cons a rest ih =>
    obtain ⟨hkeeps, hrest⟩ := Bool.or_eq_false_iff.mp h
    obtain ⟨hstore, hpreferences⟩ := (k.perform_keeps a).2 hkeeps
    have hall : k.performAll (a :: rest) = (k.perform a).2.performAll rest := rfl
    rw [hall, (ih hrest).1, (ih hrest).2]
    exact ⟨hpreferences, hstore⟩

/-- The induction looks for the first kept action: until then the store is the earlier one. -/
theorem follows_of_keepsAny {actions : List Action} (hstore : k.store = store)
    (h : k.keepsAny actions = true) : (k.performAll actions).Follows store := by
  induction actions generalizing k with
  | nil => cases h
  | cons a rest ih =>
    cases hkeeps : k.keeps a with
    | true =>
      have hfollows := follows_of_keeps (Or.inl hstore) hkeeps
      exact hfollows.performAll rest
    | false =>
      obtain ⟨hsame, -⟩ := (k.perform_keeps a).2 hkeeps
      have hrest : (k.perform a).2.keepsAny rest = true := by
        simpa [keepsAny, hkeeps] using h
      exact ih (hsame.trans hstore) hrest

end Run

/-- Once one action was kept, the store is the initial one with the current preferences written
into it; before that, preferences and store are those of the start. Moving the tool, measuring,
collisions and refused requests touch neither. -/
theorem store_performAll (store : MemoryStore) (actions : List Action) :
    let k := (load store).performAll actions
    (if (load store).keepsAny actions then
      k.store = store.set Snapshot.key (Json.write k.session.preferences)
    else k.session.preferences = (load store).session.preferences ∧ k.store = store) ∧
    ∀ a : Action, a.isTransport ∨ a.isMeasuring ∨ a.isCollision ∨ (k.perform a).1.isRefusal →
      (k.perform a).2.store = k.store ∧
        (k.perform a).2.session.preferences = k.session.preferences := by
  intro k
  constructor
  · split
    · rename_i hkeeps
      exact follows_of_keepsAny rfl hkeeps
    · rename_i hnot
      exact performAll_of_not_keepsAny (Bool.not_eq_true _ ▸ hnot)
  · intro a hkind
    refine (k.perform_keeps a).2 ?_
    unfold keeps
    rw [a.isKept_eq]
    rcases hkind with h | h | h | h <;> simp [h]

end Kept

end Session

end Milling
