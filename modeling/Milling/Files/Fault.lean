/-!
Why a file could not be read or written, and how the system words it.
-/

namespace Milling

inductive FileFault
  /-- Nothing has this name, or a directory on the way does not exist. -/
  | missing
  /-- Something on the way is not a directory. -/
  | notDirectory
  /-- A file was expected and the name is that of a directory. -/
  | isDirectory
  /-- Something with this name exists already. -/
  | taken
  /-- A part of the name is too long. -/
  | nameTooLong
  /-- The name holds a character that ends names. -/
  | nulInName
  /-- The bytes of the file are no UTF-8. -/
  | notText
  /-- A cause in the words of the system. -/
  | stated (words : String)
deriving DecidableEq, Inhabited

def FileFault.message : FileFault → String
  | .missing => "No such file or directory (os error 2)"
  | .notDirectory => "Not a directory (os error 20)"
  | .isDirectory => "Is a directory (os error 21)"
  | .taken => "File exists (os error 17)"
  | .nameTooLong => "File name too long (os error 36)"
  | .nulInName => "file name contained an unexpected NUL byte"
  | .notText => "stream did not contain valid UTF-8"
  | .stated words => words

end Milling
