import Milling.Files.Tree
import Milling.Json.Reader
import Milling.Json.Writer
import Milling.Preferences.Basic
import Milling.Toml.Reader
import Milling.Toml.Writer
/-!
Preferences in files, as JSON or as TOML.

The extension of a file's name tells the format. Preferences from a file have to be valid, and only
valid ones are written to a file.
-/

namespace Milling

inductive SettingsFormat
  | json
  | toml
deriving DecidableEq, Inhabited

namespace SettingsFormat

/-- The format that the name of a file tells. -/
def ofPath (path : String) : Except Fault SettingsFormat :=
  match Path.extension? path with
  | some "json" => .ok json
  | some "toml" => .ok toml
  | other =>
    .error (.format ("'" ++ other.getD "" ++ "' (config file must be .json or .toml)"))

def read (format : SettingsFormat) (text : String) : Except Fault Preferences :=
  match format with
  | json => (Json.read? text).elim (.error .json) .ok
  | toml => (Toml.read? text).elim (.error .toml) .ok

def write (format : SettingsFormat) (p : Preferences) : String :=
  match format with
  | json => Json.pretty (encode p)
  | toml => Toml.write p

end SettingsFormat

namespace Preferences

/-- The preferences in a file, where `read` tells the text of a file. -/
def ofFile (read : String → Except FileFault String) (path : String) :
    Except Fault Preferences := do
  let text ← (read path).mapError fun fault => .load (path ++ ": " ++ fault.message)
  let format ← SettingsFormat.ofPath path
  let p ← format.read text
  p.validate
  return p

/-- Writes preferences to a file of a tree. -/
def toFile (p : Preferences) (tree : FileTree) (path : String) : Except Fault FileTree := do
  p.validate
  let format ← SettingsFormat.ofPath path
  (tree.write path (format.write p)).mapError fun fault => .save (path ++ ": " ++ fault.message)

end Preferences

end Milling
