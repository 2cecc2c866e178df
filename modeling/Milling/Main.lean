import Milling.CommandLine.Answer
/-!
The program: it reads the files that a command line names and prints the answer.
-/

open Milling

def causeOf : IO.Error → FileFault
  | .noFileOrDirectory .. => .missing
  | .inappropriateType _ 20 _ => .notDirectory
  | .inappropriateType _ 21 _ => .isDirectory
  | e => .stated (toString e)

def readText (path : String) : IO (Except FileFault String) := do
  match ← (IO.FS.readBinFile path).toBaseIO with
  | .ok bytes =>
    match String.fromUTF8? bytes with
    | some text => return .ok text
    | none => return .error .notText
  | .error e => return .error (causeOf e)

def main (args : List String) : IO UInt32 := do
  let answer ← match CommandLine.Request.ofArguments args with
    | .error why => pure why.answer
    | .ok request =>
      let texts ← request.files.mapM fun path => return (path, ← readText path)
      pure (request.answer fun path => (texts.lookup path).getD (.error .missing))
  IO.print answer.output
  IO.eprint answer.errors
  return answer.code
