import Milling.Decimal.Layout
import Milling.Files.Fault
/-!
What can go wrong with settings and programs, and the words for it.
-/

namespace Milling

inductive Refusal
  /-- A stored number has to be above zero. -/
  | mustBePositive
  /-- An edge of the block of material has to be above zero. -/
  | dimensionsMustBePositive
  /-- The ends of the window of heights are in the wrong order. -/
  | windowReversed (min max : Float)
  /-- A number given is not finite or not above zero. -/
  | notPositive (value : Float)
  /-- No element of the view has this name. -/
  | unknownElement (name : String)
  /-- A reason in the words of the caller. -/
  | stated (words : String)
deriving Inhabited

def Refusal.message : Refusal → String
  | .mustBePositive => "must be > 0"
  | .dimensionsMustBePositive => "all dimensions must be > 0"
  | .windowReversed min max =>
    "min (" ++ Decimal.inMessage.write min ++ ") must not exceed max (" ++
      Decimal.inMessage.write max ++ ")"
  | .notPositive value => Decimal.inMessage.write value ++ " is not a positive number"
  | .unknownElement name => "unknown element '" ++ name ++ "'"
  | .stated words => words

/-- A fault with settings or their store. -/
inductive Fault
  /-- A settings file could not be read. -/
  | load (detail : String)
  /-- A settings file could not be written. -/
  | save (detail : String)
  /-- A setting has a value that is refused. -/
  | invalid (key : String) (why : Refusal)
  /-- The directory of a store could not be made. -/
  | directory (detail : String)
  /-- The name of a settings file does not tell a format. -/
  | format (detail : String)
  /-- A file of a store could not be read or written. -/
  | file (cause : FileFault)
  /-- A text is no JSON, or not the JSON of the value that was asked for. -/
  | json
  /-- A text is no TOML, or not the TOML of the value that was asked for. -/
  | toml
deriving Inhabited

def Fault.message : Fault → String
  | .load detail => "Failed to load settings: " ++ detail
  | .save detail => "Failed to save settings: " ++ detail
  | .invalid key why => "Invalid setting '" ++ key ++ "': " ++ why.message
  | .directory detail => "Config directory error: " ++ detail
  | .format detail => "Unsupported config format: " ++ detail
  | .file cause => "I/O error: " ++ cause.message
  | .json => "JSON error"
  | .toml => "TOML error"

/-- A fault with a program. -/
inductive ProgramFault
  | unknownTemplate (id : String)
  /-- A program file could not be read. -/
  | unreadable (detail : String)
  | file (cause : FileFault)
  | stated (words : String)
deriving DecidableEq, Inhabited

namespace ProgramFault

def message : ProgramFault → String
  | unknownTemplate id => "Unknown template: " ++ id
  | unreadable detail => "File error: " ++ detail
  | file cause => "I/O error: " ++ cause.message
  | stated words => words

/-- The fault lies with the program that was asked for, not with the system. -/
def isOfProgram : ProgramFault → Bool
  | unknownTemplate _ | unreadable _ => true
  | _ => false

end ProgramFault

end Milling
