import Milling.CommandLine.Listing
import Milling.CommandLine.Request
import Milling.Preferences.File
/-!
The answer of the program to a command line: what it prints and the code it ends with.

The settings file is read first, so its faults come before those of the program.
-/

namespace Milling.CommandLine

/-- What is printed, what is printed as an error, and the exit code. -/
structure Answer where
  output : String
  errors : String
  code : UInt32
deriving DecidableEq, Inhabited

namespace Answer

def done (output : String) : Answer := ⟨output, "", 0⟩

def failed (message : String) : Answer := ⟨"", "Error: " ++ message ++ "\n", 1⟩

end Answer

def programVersion : String := "0.1.0"

def usage : String :=
  unlines
    ["Inspect, validate and simulate CNC milling programs.",
     "",
     "Usage: millview [--config FILE] COMMAND",
     "",
     "Commands:",
     "  stats FILE | --template ID",
     "  validate FILE",
     "  simulate FILE | --template ID [--speed FACTOR] [--fps COUNT]",
     "  templates"]

/-- Reads a program: its text, and the name to show for it. -/
def readSource (read : String → Except FileFault String) :
    Source → Except ProgramFault (String × String)
  | .template id =>
    match Template.find? id with
    | some t => .ok (t.text, t.fileName)
    | none => .error (.unknownTemplate id)
  | .file path =>
    match read path with
    | .ok text => .ok (text, (Path.fileName? path).getD path)
    | .error fault => .error (.unreadable (path ++ ": " ++ fault.message))

def simulate (name : String) (p : Program) (speed : Float) (fps : Nat) : Answer :=
  if fps = 0 then .failed "--fps must be greater than zero"
  else if !Binary64.isPositive speed then .failed "--speed must be a positive number"
  else
    let frame := 1.0 / Float.ofNat fps
    .done (simulation name p fps frame (Simulation.play p speed frame))

def perform (read : String → Except FileFault String) (p : Preferences) : Task → Answer
  | .stats source =>
    match readSource read source with
    | .ok (text, name) => .done (stats name (Program.compile text))
    | .error fault => .failed fault.message
  | .validate path =>
    match readSource read (.file path) with
    | .ok (text, name) =>
      let report := Lint.check text
      { Answer.done (issues name report) with code := if report.isValid then 0 else 1 }
    | .error fault => .failed fault.message
  | .simulate source speed fps =>
    match readSource read source with
    | .ok (text, name) => simulate name (Program.compile text) (speed.getD p.speed) fps
    | .error fault => .failed fault.message
  | .templates => .done templates

/-- The answer to a request, where `read` tells the text of a file. -/
def Request.answer (read : String → Except FileFault String) (r : Request) : Answer :=
  let preferences := match r.config with
    | some path => Preferences.ofFile read path
    | none => .ok .initial
  match preferences with
  | .ok p => perform read p r.task
  | .error fault => .failed fault.message

def Stop.answer : Stop → Answer
  | .version => .done ("millview " ++ programVersion ++ "\n")
  | .help => .done usage
  | .misuse => ⟨"", usage, 2⟩

def answer (read : String → Except FileFault String) (args : List String) : Answer :=
  match Request.ofArguments args with
  | .ok request => request.answer read
  | .error why => why.answer

end Milling.CommandLine
