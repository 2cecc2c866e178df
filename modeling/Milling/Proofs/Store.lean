import Milling.Proofs.Files.Tree
import Milling.Proofs.Preferences.Loaded
import Milling.Proofs.Preferences.Stored
/-!
Stores that keep what they take.

A store in memory and a store in a directory both give back the text that was put under a key
(`KeyStore.Keeps`). So what comes back of preferences that were saved is what their text holds
(`Snapshot.load?_save`).
-/

namespace Milling

/-- The store keeps a text that it takes: the key that it was put under gives it back. -/
class KeyStore.Keeps (σ : Type) [KeyStore σ] : Prop where
  get_set {s : σ} {key text : String} : (KeyStore.set s key text).1 = .ok () →
    KeyStore.get (KeyStore.set s key text).2 key = .ok (some text)

/-- A store in memory has what was put into it. -/
theorem MemoryStore.get_set (s : MemoryStore) (key text : String) :
    (s.set key text).get key = some text :=
  List.lookup_cons_self

instance : KeyStore.Keeps MemoryStore where
  get_set _ := congrArg Except.ok (MemoryStore.get_set _ _ _)

theorem DirectoryStore.get_of_read {s : DirectoryStore} {key text : String}
    (h : s.tree.read (s.path key) = .ok text) : s.get key = .ok (some text) := by
  unfold get
  rw [h]

/-- A store in a directory has what was put into it, if that was written. -/
theorem DirectoryStore.get_set {s : DirectoryStore} {key text : String}
    (h : (s.set key text).1 = .ok ()) : (s.set key text).2.get key = .ok (some text) := by
  unfold set at h ⊢
  split at h
  · cases h
  · split at h
    · rename_i hwrite
      exact get_of_read (FileTree.read_of_write hwrite)
    · cases h

instance : KeyStore.Keeps DirectoryStore where
  get_set := DirectoryStore.get_set

namespace Snapshot

variable {σ : Type} [KeyStore σ] [KeyStore.Keeps σ] {store : σ} {p : Preferences}

/-- Preferences that a store has taken can be loaded exactly if they are finite. -/
theorem load?_save (h : (save store p).1 = .ok ()) :
    load? (save store p).2 =
      if p.isFinite then .ok (some p.carried.withFallbacks) else .error .json := by
  have hget : KeyStore.get (save store p).2 key = .ok (some (Json.write p)) :=
    KeyStore.Keeps.get_set h
  rw [load?_of_get hget, p.read?_write]
  cases p.isFinite <;> rfl

/-- A session starts with the preferences that its store has taken, or with the initial ones if they
are not finite. -/
theorem load_save (h : (save store p).1 = .ok ()) :
    load (save store p).2 = if p.isFinite then p.carried.withFallbacks else .initial := by
  rw [load, load?_save h]
  cases p.isFinite <;> rfl

end Snapshot

end Milling
