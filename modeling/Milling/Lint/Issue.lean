/-!
Issues that the checker reports, by line.
-/

namespace Milling.Lint

/-- How serious an issue is. Only errors make a program invalid. -/
inductive Severity
  | error
  | warning
deriving DecidableEq, Inhabited

def Severity.label : Severity → String
  | .error => "error"
  | .warning => "warning"

def Severity.all : List Severity :=
  [.error, .warning]

/-- An issue with the line it was found on, counted from 1. -/
structure Issue where
  line : Nat
  severity : Severity
  message : String
  code : String
deriving DecidableEq, Inhabited

def Issue.display (i : Issue) : String :=
  "line " ++ toString i.line ++ ": " ++ i.severity.label ++ " [" ++ i.code ++ "] " ++ i.message

/-- All issues of a program and their counts by severity. -/
structure Report where
  issues : List Issue
  errors : Nat
  warnings : Nat
deriving DecidableEq, Inhabited

def Report.ofIssues (issues : List Issue) : Report :=
  let errors := (issues.filter (·.severity == .error)).length
  ⟨issues, errors, issues.length - errors⟩

def Report.isValid (r : Report) : Bool :=
  r.errors == 0

end Milling.Lint
