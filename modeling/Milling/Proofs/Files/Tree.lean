import Mathlib.Tactic.Common
import Milling.Files.Tree
/-!
Writing a file and reading it.

To put a file where there is no directory moves no directory, so every path that led somewhere leads
there still (`walk_put`), and the file that was written is read back (`read_of_write`).
-/

namespace Milling.FileTree

variable {t t' : FileTree}

/-- Putting an entry changes what is at its own place and at no other. -/
theorem lookup_put {spot place : List String} {entry : FileEntry} (hspot : isBase spot = false) :
    (t.put spot entry).lookup place = if place = spot then some entry else t.lookup place := by
  unfold lookup put
  by_cases hplace : place = spot
  · rw [if_pos hplace, hplace, hspot, List.lookup_cons_self]
    rfl
  · have hne : (place == spot) = false := beq_eq_false_iff_ne.mpr hplace
    have hothers : (t.entries.filter (·.1 != spot)).lookup place = t.entries.lookup place := by
      induction t.entries with
      | nil => rfl
      | cons first others ih =>
        by_cases hfirst : first.1 = spot
        · have hother : (place == first.1) = false := hfirst ▸ hne
          rw [List.filter_cons_of_neg (by simpa using hfirst), ih, List.lookup_cons, hother]
        · rw [List.filter_cons_of_pos (by simpa using hfirst), List.lookup_cons, ih,
            List.lookup_cons]
    rw [if_neg hplace, List.lookup_cons, hne, hothers]

/-- Where there is no directory, there is none of those in which names are looked up. -/
theorem isBase_of_lookup {spot : List String} (h : t.lookup spot ≠ some .directory) :
    isBase spot = false := by
  rw [Bool.eq_false_iff]
  exact fun hbase => h (if_pos hbase)

/-- Where a walk led before something was put, it leads afterwards, unless a directory was
replaced. -/
theorem walk_put {spot place parts : List String} {entry : FileEntry} {target : Target}
    (hspot : t.lookup spot ≠ some .directory) (h : t.walk place parts = .ok target) :
    (t.put spot entry).walk place parts = .ok target := by
  induction parts generalizing place with
  | nil => exact h
  | cons part rest ih =>
    unfold walk at h ⊢
    split
    · rename_i hdot
      rw [if_pos hdot] at h
      exact ih h
    rename_i hdot
    rw [if_neg hdot] at h
    split
    · rename_i hup
      rw [if_pos hup] at h
      exact ih h
    rename_i hup
    rw [if_neg hup] at h
    split
    · rename_i hlast
      rwa [if_pos hlast] at h
    rename_i hlast
    rw [if_neg hlast] at h
    split
    · rename_i hlong
      rwa [if_pos hlong] at h
    rename_i hlong
    rw [if_neg hlong] at h
    -- The walk goes on through a directory, which is not the place of the new entry.
    cases hnext : t.lookup (place ++ [part]) with
    | none =>
      rw [hnext] at h
      cases h
    | some found =>
      rw [hnext] at h
      cases found with
      | file text => cases h
      | directory =>
        have hne : place ++ [part] ≠ spot := fun heq => hspot (heq ▸ hnext)
        rw [lookup_put (isBase_of_lookup hspot), if_neg hne, hnext]
        exact ih h

/-- A write that succeeds puts the text at a name that is not that of a directory. -/
theorem exists_put_of_write {path text : String} (h : t.write path text = .ok t') :
    ∃ place name, pathFault? path = none ∧ t.walk [] (Path.parts path) = .ok (.name place name) ∧
      Path.endsInSlash path = false ∧ isTooLong name = false ∧
      t.lookup (place ++ [name]) ≠ some .directory ∧
      t' = t.put (place ++ [name]) (.file (some text)) := by
  unfold write at h
  split at h
  · cases h
  rename_i hfault
  split at h
  · cases h
  · cases h
  rename_i place name hwalk
  split at h
  · cases h
  rename_i hslash
  have hlookup : isTooLong name = false → t.entry (.name place name) ≠ .ok .directory →
      t.lookup (place ++ [name]) ≠ some .directory := by
    intro hlong hentry hdirectory
    rw [entry, hlong, hdirectory] at hentry
    exact hentry rfl
  have hlong : t.entry (.name place name) ≠ .error .nameTooLong → isTooLong name = false := by
    intro hentry
    rw [Bool.eq_false_iff]
    exact fun hlong => hentry (if_pos hlong)
  split at h
  · cases h
  · rename_i hentry
    have hshort := hlong (by rw [hentry]; nofun)
    exact ⟨place, name, hfault, hwalk, by simpa using hslash, hshort,
      hlookup hshort (by rw [hentry]; nofun), (Except.ok.inj h).symm⟩
  · rename_i hentry
    have hshort := hlong (by rw [hentry]; nofun)
    exact ⟨place, name, hfault, hwalk, by simpa using hslash, hshort,
      hlookup hshort (by rw [hentry]; nofun), (Except.ok.inj h).symm⟩
  · cases h

/-- What was written to a file is read from it. -/
theorem read_of_write {path text : String} (h : t.write path text = .ok t') :
    t'.read path = .ok text := by
  obtain ⟨place, name, hfault, hwalk, hslash, hshort, hlookup, rfl⟩ := exists_put_of_write h
  have hbase := isBase_of_lookup hlookup
  have hentry : (t.put (place ++ [name]) (.file (some text))).entry (.name place name) =
      .ok (.file (some text)) := by
    rw [entry, hshort, lookup_put hbase, if_pos rfl]
    rfl
  have hfind : (t.put (place ++ [name]) (.file (some text))).find path =
      .ok (.file (some text)) := by
    unfold find
    rw [hfault, walk_put hlookup hwalk]
    change (entry _ (.name place name) >>= _) = _
    rw [hentry]
    change (if Path.endsInSlash path = true then _ else _) = _
    rw [hslash]
    rfl
  rw [read, hfind]

end Milling.FileTree
