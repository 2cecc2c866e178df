import Milling.Data.Datum
import Milling.Lint.Issue
/-!
The stored forms of issues and reports.
-/

namespace Milling.Lint

open Datum (required)

instance : Storable Severity where
  encode s := .text s.label
  decode := Datum.choice? Severity.all Severity.label

instance : Storable Issue where
  encode i :=
    .record [("line", encode i.line), ("severity", encode i.severity),
      ("message", encode i.message), ("code", encode i.code)]
  decode d := do
    let [line, severity, message, code] ←
      d.fields? ["line", "severity", "message", "code"] false | none
    some ⟨← required line, ← required severity, ← required message, ← required code⟩

instance : Storable Report where
  encode r :=
    .record [("issues", encode r.issues), ("error_count", encode r.errors),
      ("warning_count", encode r.warnings)]
  decode d := do
    let [issues, errors, warnings] ←
      d.fields? ["issues", "error_count", "warning_count"] false | none
    some ⟨← required issues, ← required errors, ← required warnings⟩

end Milling.Lint
