import Milling.Json.Reader
import Milling.Json.Writer
import Milling.Preferences.Basic
import Milling.Store.Basic
/-!
Preferences in a store: one text of JSON under a fixed key.

A text that cannot be read never keeps a session from starting: it starts with the initial
preferences instead.
-/

namespace Milling.Snapshot

def key : String := "millview-state"

variable {σ : Type} [KeyStore σ]

/-- The preferences in a store, with defaults for what cannot be used; none if there are none. -/
def load? (store : σ) : Except Fault (Option Preferences) := do
  match ← KeyStore.get store key with
  | none => return none
  | some text =>
    match (Json.read? text : Option Preferences) with
    | some p => return some p.withFallbacks
    | none => throw .json

/-- The preferences to start with. -/
def load (store : σ) : Preferences :=
  match load? store with
  | .ok (some p) => p
  | _ => .initial

def save (store : σ) (p : Preferences) : Except Fault Unit × σ :=
  KeyStore.set store key (Json.write p)

end Milling.Snapshot
