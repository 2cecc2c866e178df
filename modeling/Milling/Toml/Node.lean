import Milling.Data.Datum
/-!
The tables of a TOML document while it is read.

A document is a table whose entries are added line by line. Which lines may add to a table depends
on how the table came about: a table with a header of its own is complete at the end of its section,
one that is only implied by the header of a table below it may still get a header, and one that
dotted keys made belongs to them.
-/

namespace Milling.Toml

/-- How a table came about. -/
inductive Origin
  /-- It has a header. -/
  | header
  /-- A table below it has a header. -/
  | implied
  /-- A dotted key leads through it. -/
  | dotted
deriving DecidableEq, Inhabited

/-- What a key stands for. -/
inductive Node where
  /-- A value that no later line adds to. -/
  | leaf (value : Datum)
  | table (origin : Origin) (entries : List (String × Node))
  /-- A list of tables: the last one, and those before it, the latest first. -/
  | tables (last : List (String × Node)) (before : List (List (String × Node)))
deriving Inhabited

/-- The entries of a table in the order in which their keys first occur. -/
abbrev Entries := List (String × Node)

namespace Entries

/-- Replaces what a key stands for, or adds the key. Fails if `f` does. -/
def alter (key : String) (f : Option Node → Option Node) : Entries → Option Entries
  | [] => (f none).map fun node => [(key, node)]
  | (k, node) :: rest =>
    if k == key then (f (some node)).map fun node => (k, node) :: rest
    else (alter key f rest).map ((k, node) :: ·)

/-- Adds a value under a dotted key: the parts before the last, and the last. The tables on the way
are made as needed; the last of them must be the table of the section itself or belong to dotted
keys. -/
def define (value : Datum) (key : String) : List String → Entries → Option Entries
  | [], entries => alter key (fun old => if old.isNone then some (.leaf value) else none) entries
  | part :: path, entries => alter part (fun
      | none => (define value key path []).map (.table .dotted)
      | some (.table .dotted inner) => (define value key path inner).map (.table .dotted)
      | some (.table .implied inner) =>
        if path.isEmpty then none else (define value key path inner).map (.table .implied)
      | some (.tables last before) =>
        if path.isEmpty then none else (define value key path last).map (.tables · before)
      | some _ => none) entries

/-- Applies `f` to the table at the end of a path of headers. The tables on the way are made as
needed; through a list of tables the path leads into its last table. -/
def within (f : Entries → Option Entries) : List String → Entries → Option Entries
  | [], entries => f entries
  | part :: path, entries => alter part (fun
      | none => (within f path []).map (.table .implied)
      | some (.table origin inner) => (within f path inner).map (.table origin)
      | some (.tables last before) => (within f path last).map (.tables · before)
      | some (.leaf _) => none) entries

/-- Starts a section with the header of a table. -/
def openTable (key : String) : List String → Entries → Option Entries :=
  within (alter key fun
    | none => some (.table .header [])
    | some (.table .implied inner) => some (.table .header inner)
    | some _ => none)

/-- Starts a section with the header of the next table of a list. -/
def openNext (key : String) : List String → Entries → Option Entries :=
  within (alter key fun
    | none => some (.tables [] [])
    | some (.tables last before) => some (.tables [] (last :: before))
    | some _ => none)

end Entries

mutual

/-- What a key stands for as data. -/
def Node.datum : Node → Datum
  | .leaf value => value
  | .table _ entries => .record (Entries.data entries)
  | .tables last before => .list false (recordsOnto [.record (Entries.data last)] before)

def Entries.data : Entries → List (String × Datum)
  | [] => []
  | (key, node) :: rest => (key, node.datum) :: Entries.data rest

/-- Tables as data in front of others, the latest of them last. -/
def recordsOnto (after : List Datum) : List Entries → List Datum
  | [] => after
  | entries :: before => recordsOnto (.record (Entries.data entries) :: after) before

end

end Milling.Toml
