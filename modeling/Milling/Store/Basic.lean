import Milling.Files.Tree
import Milling.Preferences.Fault
/-!
Stores of texts by key.

A store answers a request for a key with the text under it, with nothing, or with a fault. Setting
a key may fail; the store may have changed even then.
-/

namespace Milling

/-- A store whose content is of type `σ`. -/
class KeyStore (σ : Type) where
  /-- The text under a key. -/
  get : σ → String → Except Fault (Option String)
  /-- Puts a text under a key. -/
  set : σ → String → String → Except Fault Unit × σ

/-- A store in memory: texts with their keys, the last one set first. -/
structure MemoryStore where
  entries : List (String × String)
deriving DecidableEq, Inhabited

namespace MemoryStore

def empty : MemoryStore := ⟨[]⟩

def get (s : MemoryStore) (key : String) : Option String :=
  s.entries.lookup key

/-- Puts a text under a key, instead of what was there. -/
def set (s : MemoryStore) (key text : String) : MemoryStore :=
  ⟨(key, text) :: s.entries.filter (·.1 != key)⟩

instance : KeyStore MemoryStore where
  get s key := .ok (s.get key)
  set s key text := (.ok (), s.set key text)

end MemoryStore

/-- A store in a directory: each text is in a file named for its key. -/
structure DirectoryStore where
  directory : String
  tree : FileTree
deriving Inhabited

namespace DirectoryStore

/-- The path of the file for a key. -/
def path (s : DirectoryStore) (key : String) : String :=
  Path.join s.directory (key ++ ".json")

/-- The text under a key. A file that does not exist is no fault. -/
def get (s : DirectoryStore) (key : String) : Except Fault (Option String) :=
  match s.tree.read (s.path key) with
  | .ok text => .ok (some text)
  | .error .missing => .ok none
  | .error fault => .error (.file fault)

/-- Puts a text under a key; the directory is made if it does not exist. -/
def set (s : DirectoryStore) (key text : String) : Except Fault Unit × DirectoryStore :=
  match s.tree.makeDirectories s.directory with
  | (.error fault, tree) =>
    (.error (.directory (s.directory ++ ": " ++ fault.message)), { s with tree })
  | (.ok (), tree) =>
    match tree.write (s.path key) text with
    | .ok tree => (.ok (), { s with tree })
    | .error fault => (.error (.file fault), { s with tree })

instance : KeyStore DirectoryStore where
  get := DirectoryStore.get
  set := DirectoryStore.set

end DirectoryStore

/-- The directory in which settings are kept: below the configuration directory if that is an
absolute path, else below the home directory. -/
def settingsDirectory (home : String) (configuration : Option String) : String :=
  let base := match configuration with
    | some path => if Path.isAbsolute path then path else Path.join home ".config"
    | none => Path.join home ".config"
  Path.join base "millview"

end Milling
