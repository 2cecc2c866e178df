/-!
Names of files.

A path is text; its parts are separated by slashes. Empty parts do not count. A single dot stays in
a directory, a double dot leads to the one above.
-/

namespace Milling.Path

/-- The parts of a path, in the order in which they are walked. -/
def parts (path : String) : List String :=
  ((path.toList.splitOn '/').map String.ofList).filter (· != "")

/-- The parts of a path without its last one, where all are given from the last to the first.
Single dots on either side of the last part go with it. -/
def above (reversed : List String) : List String :=
  ((reversed.dropWhile (· == ".")).tail).dropWhile (· == ".")

theorem length_above_lt {reversed : List String} (h : reversed ≠ []) :
    (above reversed).length < reversed.length := by
  have hpos := List.length_pos_iff.mpr h
  have hinner := (List.dropWhile_sublist (l := reversed) (· == ".")).length_le
  have houter := (List.dropWhile_sublist (l := (reversed.dropWhile (· == ".")).tail)
    (· == ".")).length_le
  simp only [List.length_tail] at houter
  simp only [above]
  omega

def isAbsolute (path : String) : Bool :=
  path.toList.head? == some '/'

/-- The path can only name a directory. -/
def endsInSlash (path : String) : Bool :=
  path.toList.getLast? == some '/'

/-- The name of the file at the end of a path; none if the path ends in a double dot or has no
part but single dots. -/
def fileName? (path : String) : Option String :=
  match ((parts path).filter (· != ".")).getLast? with
  | some ".." => none
  | last => last

/-- What stands after the last dot of a file name. A dot at the start of the name does not
count. -/
def extension? (path : String) : Option String :=
  (fileName? path).bind fun name =>
    let reversed := name.toList.reverse
    let after := reversed.takeWhile (· != '.')
    match reversed.drop after.length with
    | '.' :: _ :: _ => some (String.ofList after.reverse)
    | _ => none

/-- A path below a directory. An absolute path stands for itself. -/
def join (directory path : String) : String :=
  if isAbsolute path then path
  else if directory == "" || endsInSlash directory then directory ++ path
  else directory ++ "/" ++ path

end Milling.Path
