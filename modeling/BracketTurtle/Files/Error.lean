import BracketTurtle.Number.Digits
import BracketTurtle.Text.Quoted

/-!
# Errors of files

Why the way to a file, or the file itself, cannot be used. An error names the path as it was
given.
-/

namespace BracketTurtle

inductive FileFault where
  | missing
  | exists
  | notADirectory
  | isADirectory
  | nameTooLong
  /-- Any other fault that a machine reports. No tree of files has one. -/
  | other (number : Nat) (text : String)
deriving DecidableEq, Repr

def FileFault.number : FileFault → Nat
  | .missing => 2
  | .exists => 17
  | .notADirectory => 20
  | .isADirectory => 21
  | .nameTooLong => 36
  | .other number _ => number

def FileFault.text : FileFault → String
  | .missing => "No such file or directory"
  | .exists => "File exists"
  | .notADirectory => "Not a directory"
  | .isADirectory => "Is a directory"
  | .nameTooLong => "File name too long"
  | .other _ text => text

/-- The fault with a number; `text` is for a number that stands for no other fault. -/
def FileFault.ofNumber (number : Nat) (text : String) : FileFault :=
  ([.missing, .exists, .notADirectory, .isADirectory, .nameTooLong].find?
    fun f : FileFault => f.number = number).getD (.other number text)

inductive FileError where
  | fault (why : FileFault) (path : String)
  /-- The path holds a null character, so it is no path at all. -/
  | nullInPath
deriving DecidableEq, Repr

def FileError.message : FileError → String
  | .fault why path =>
    "[Errno " ++ Number.naturalText why.number ++ "] " ++ why.text ++ ": " ++ Text.quoted path
  | .nullInPath => "embedded null byte"

end BracketTurtle
