import Milling.Files.Fault
import Milling.Files.Path
/-!
A tree of files, as far as programs and settings are kept in one.

The tree is a map from the parts of a path to what is there. The empty path is the directory in
which all names are looked up; it and the directories above it always exist. Every operation walks
the parts of a path one by one, so of several obstacles it meets the one that the system would meet.
-/

namespace Milling

inductive FileEntry
  | directory
  /-- A file with its text, `none` if its bytes are no UTF-8. -/
  | file (text : Option String)
deriving DecidableEq, Inhabited

/-- The entries of a tree by the parts of their paths. A path has no single dots, and double dots
only at its start. -/
structure FileTree where
  entries : List (List String × FileEntry)
deriving Inhabited

namespace FileTree

def empty : FileTree := ⟨[]⟩

/-- The place is the directory in which names are looked up, or one above it. -/
def isBase (place : List String) : Bool :=
  place.all (· == "..")

def up (place : List String) : List String :=
  if isBase place then ".." :: place else place.dropLast

def lookup (t : FileTree) (place : List String) : Option FileEntry :=
  if isBase place then some .directory else t.entries.lookup place

/-- Puts an entry at a place, instead of what was there. -/
def put (t : FileTree) (place : List String) (entry : FileEntry) : FileTree :=
  ⟨(place, entry) :: t.entries.filter (·.1 != place)⟩

/-- The greatest length of a path in bytes. -/
def pathLimit : Nat := 4095

/-- The greatest length of a name in bytes. -/
def nameLimit : Nat := 255

/-- The part of a path is too long to be a name. -/
def isTooLong (part : String) : Bool :=
  nameLimit < part.utf8ByteSize

/-- Faults that a path has in any tree. -/
def pathFault? (path : String) : Option FileFault :=
  if path.toList.contains '\x00' then some .nulInName
  else if pathLimit < path.utf8ByteSize then some .nameTooLong
  else if path == "" || Path.isAbsolute path then some .missing
  else none

/-- Where a path leads: to a directory that exists, or to a name in one. -/
inductive Target
  | directory (place : List String)
  | name (place : List String) (name : String)
deriving DecidableEq, Inhabited

/-- Walks parts from a directory. Every part but the last has to be a directory, also if only single
dots follow it. -/
def walk (t : FileTree) (place : List String) : List String → Except FileFault Target
  | [] => .ok (.directory place)
  | part :: rest =>
    if part == "." then walk t place rest
    else if part == ".." then walk t (up place) rest
    else if rest.isEmpty then .ok (.name place part)
    else if isTooLong part then .error .nameTooLong
    else
      match t.lookup (place ++ [part]) with
      | some .directory => walk t (place ++ [part]) rest
      | some (.file _) => .error .notDirectory
      | none => .error .missing

def entry (t : FileTree) : Target → Except FileFault FileEntry
  | .directory _ => .ok .directory
  | .name place name =>
    if isTooLong name then .error .nameTooLong
    else (t.lookup (place ++ [name])).elim (.error .missing) .ok

def find (t : FileTree) (path : String) : Except FileFault FileEntry :=
  match pathFault? path with
  | some fault => .error fault
  | none => do
    match ← t.entry (← t.walk [] (Path.parts path)) with
    | .directory => .ok .directory
    | .file text => if Path.endsInSlash path then .error .notDirectory else .ok (.file text)

def holds (t : FileTree) (path : String) : Bool :=
  (t.find path).isOk

def read (t : FileTree) (path : String) : Except FileFault String :=
  match t.find path with
  | .error fault => .error fault
  | .ok .directory => .error .isDirectory
  | .ok (.file none) => .error .notText
  | .ok (.file (some text)) => .ok text

def write (t : FileTree) (path : String) (text : String) : Except FileFault FileTree :=
  match pathFault? path with
  | some fault => .error fault
  | none =>
    match t.walk [] (Path.parts path) with
    | .error fault => .error fault
    | .ok (.directory _) => .error .isDirectory
    | .ok (.name place name) =>
      if Path.endsInSlash path then .error .isDirectory
      else
        match t.entry (.name place name) with
        | .ok .directory => .error .isDirectory
        | .ok (.file _) | .error .missing => .ok (t.put (place ++ [name]) (.file (some text)))
        | .error fault => .error fault

/-! ### Making directories -/

def makeDirectory (t : FileTree) (parts : List String) : Except FileFault FileTree :=
  match t.walk [] parts with
  | .error fault => .error fault
  | .ok (.directory _) => .error .taken
  | .ok (.name place name) =>
    match t.entry (.name place name) with
    | .ok _ => .error .taken
    | .error .missing => .ok (t.put (place ++ [name]) .directory)
    | .error fault => .error fault

/-- Parts lead to a directory. -/
def isDirectory (t : FileTree) (parts : List String) : Bool :=
  match t.walk [] parts with
  | .error _ => false
  | .ok target =>
    match t.entry target with
    | .ok .directory => true
    | _ => false

/-- Makes one directory, unless it exists already. -/
def provide (t : FileTree) (parts : List String) : Except FileFault Unit × FileTree :=
  match t.makeDirectory parts with
  | .ok t => (.ok (), t)
  | .error fault => (if t.isDirectory parts then .ok () else .error fault, t)

/-- Makes a directory whose parts are given from the last to the first. If what it is to be made in
is missing, that is made before. The tree afterwards holds the directories that were made, also if
a later one could not be. -/
def provideAll (t : FileTree) (reversed : List String) : Except FileFault Unit × FileTree :=
  if reversed = [] then (.ok (), t)
  else
    match t.provide reversed.reverse with
    | (.error .missing, t) =>
      match provideAll t (Path.above reversed) with
      | (.ok (), t) => t.provide reversed.reverse
      | failed => failed
    | done => done
termination_by reversed.length
decreasing_by exact Path.length_above_lt ‹_›

/-- Makes a directory with all directories above it; nothing happens if it exists. -/
def makeDirectories (t : FileTree) (path : String) : Except FileFault Unit × FileTree :=
  if path == "" then (.ok (), t)
  else
    match pathFault? path with
    | some fault => (.error fault, t)
    | none => t.provideAll (Path.parts path).reverse

/-- Puts an entry under a path, with all directories above it. -/
def place (t : FileTree) (path : String) (entry : FileEntry) : FileTree :=
  let t := (t.provideAll (Path.above (Path.parts path).reverse)).2
  match t.walk [] (Path.parts path) with
  | .ok (.name place name) => t.put (place ++ [name]) entry
  | _ => t

end FileTree

end Milling
