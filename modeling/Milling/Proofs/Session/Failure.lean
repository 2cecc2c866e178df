import Milling.Proofs.Session.Consistent
/-!
Stores that fail.

The store is only read at the start, and whether it takes what an action saves is not asked. So two
stores that start a session with the same preferences lead to the same replies and sessions, step by
step, whatever either of them does with the texts it is given (`Kept.trace_eq_of_load`).
-/

namespace Milling

/-- A store that fails at some of its calls: `fault? n` is the fault of call number `n`, if it has
one, and such a call changes nothing. -/
structure FlakyStore (σ : Type) where
  store : σ
  fault? : Nat → Option Fault
  calls : Nat

namespace FlakyStore

variable {σ : Type} [KeyStore σ]

def set (s : FlakyStore σ) (key text : String) : Except Fault Unit × FlakyStore σ :=
  match s.fault? s.calls with
  | some fault => (.error fault, { s with calls := s.calls + 1 })
  | none =>
    let (result, store) := KeyStore.set s.store key text
    (result, { s with store, calls := s.calls + 1 })

instance : KeyStore (FlakyStore σ) where
  get s key := KeyStore.get s.store key
  set := FlakyStore.set

end FlakyStore

namespace Session.Kept

section Trace

variable {σ τ : Type} [KeyStore σ] [KeyStore τ]

/-- The replies to some actions, each with the session after it. -/
def trace (k : Kept σ) : List Action → List (Reply × Session)
  | [] => []
  | a :: rest => ((k.perform a).1, (k.perform a).2.session) :: (k.perform a).2.trace rest

/-- What an action saves comes after its changes, so nothing of the store gets into the session. -/
theorem perform_congr {k : Kept σ} {l : Kept τ} (h : k.session = l.session) (a : Action) :
    (k.perform a).1 = (l.perform a).1 ∧ (k.perform a).2.session = (l.perform a).2.session := by
  cases k
  cases l
  cases h
  cases a with
  | loadTemplate id =>
    simp only [perform]
    cases Template.find? id <;> exact ⟨rfl, rfl⟩
  | setSpeed speed =>
    simp only [perform]
    split <;> exact ⟨rfl, rfl⟩
  | setToolDiameter diameter =>
    simp only [perform]
    split <;> exact ⟨rfl, rfl⟩
  | _ => exact ⟨rfl, rfl⟩

/-- Two stores with one session tell the same story. The induction is on the actions, and all that
carries over from one to the next is the session. -/
theorem trace_congr {k : Kept σ} {l : Kept τ} (h : k.session = l.session)
    (actions : List Action) : k.trace actions = l.trace actions := by
  induction actions generalizing k l with
  | nil => rfl
  | cons a rest ih =>
    obtain ⟨hreply, hsession⟩ := perform_congr h a
    unfold trace
    rw [hreply, hsession, ih hsession]

end Trace

/-- The store never influences a session once it has started: from two stores with the same
preferences, any actions get the same replies and lead to the same sessions, and so to the same of
all that a session shows. -/
theorem trace_eq_of_load {σ τ : Type} [KeyStore σ] [KeyStore τ] {s : σ} {t : τ}
    (h : Snapshot.load s = Snapshot.load t) (actions : List Action) :
    (load s).session = (load t).session ∧ (load s).trace actions = (load t).trace actions := by
  have hstart : (load s).session = (load t).session := congrArg start h
  exact ⟨hstart, trace_congr hstart actions⟩

/-- Here the first call fails, so the new program is lost and only the new speed reaches the store;
the session is the one of a store that never fails. -/
theorem trace_eq_of_load_flaky :
    let flaky : FlakyStore MemoryStore :=
      ⟨.empty, fun n => if n = 0 then some (.file .missing) else none, 0⟩
    let actions : List Action := [.setProgram "G1 X5", .tick 0.5, .setSpeed 2.0]
    Snapshot.load flaky = Snapshot.load MemoryStore.empty ∧
      (load flaky).trace actions = (load MemoryStore.empty).trace actions ∧
      ((load flaky).performAll (actions.take 2)).store.store = .empty ∧
      ((load MemoryStore.empty).performAll (actions.take 2)).store ≠ .empty :=
  ⟨rfl, (trace_eq_of_load rfl _).2, rfl, nofun⟩

end Session.Kept

end Milling
