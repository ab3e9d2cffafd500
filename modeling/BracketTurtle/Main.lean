import BracketTurtle.Program.Commands
import BracketTurtle.Text.Lines
import Std.Time

/-!
# The program on the files of a machine

The job of the program is carried out as it stands: reading and saving go to the machine, and
the report to its output and error streams.
-/

namespace BracketTurtle
namespace Machine

/-- Number and text of an error, if the machine gave it a number. -/
def numbered? : IO.Error → Option (UInt32 × String)
  | .alreadyExists _ n text | .otherError n text | .resourceBusy n text
  | .resourceVanished n text | .unsupportedOperation n text | .hardwareFault n text
  | .unsatisfiedConstraints n text | .illegalOperation n text | .protocolError n text
  | .timeExpired n text | .interrupted _ n text | .noFileOrDirectory _ n text
  | .invalidArgument _ n text | .permissionDenied _ n text | .resourceExhausted _ n text
  | .inappropriateType _ n text | .noSuchThing _ n text => some (n, text)
  | .unexpectedEof | .userError _ => none

def fileError (path : String) (e : IO.Error) : FileError :=
  match numbered? e with
  | some (n, text) => .fault (.ofNumber n.toNat text) path
  | none => .fault (.other 5 (toString e)) path

/-- An action on the file of a path. -/
def onFile {α : Type} (path : String) (action : IO α) : IO (Except FileError α) := do
  if '\x00' ∈ path.toList then return .error .nullInPath
  try
    return .ok (← action)
  catch e =>
    return .error (fileError path e)

def readBytes (path : String) : IO (Except FileError (List UInt8)) :=
  onFile path do
    let bytes ← IO.FS.withFile path .read fun file => file.readBinToEnd
    return bytes.toList

/-- Makes a directory, which may be there already. Asking for the directory in it tells a
directory from a file. -/
def makeDirectory (path : String) : IO (Except FileError Unit) := do
  match ← onFile path (IO.FS.createDir path) with
  | .error (.fault .exists _) =>
    match ← onFile path (IO.FS.createDir (path ++ "/.")) with
    | .error (.fault .notADirectory _) => return .error (.fault .exists path)
    | _ => return .ok ()
  | result => return result

/-- Makes the directories from `here` down; what is in the way shows at the last of them. -/
def makeDirectories (root : List Char) (here : Location) :
    List Name → IO (Except FileError Unit)
  | [] => return .ok ()
  | [n] => makeDirectory (Path.locationText root (here ++ [n]))
  | n :: ns => do
    let path := Path.locationText root (here ++ [n])
    match ← onFile path (IO.FS.createDir path) with
    | .ok _ | .error (.fault .exists _) => makeDirectories root (here ++ [n]) ns
    | .error e => return .error e

def saveText (here : Location) (path text : String) : IO (Except FileError Unit) := do
  let p := Path.ofText path
  match ← makeDirectories p.root [] (p.location here).dropLast with
  | .error e => return .error e
  | .ok _ => onFile path (IO.FS.writeBinFile path text.toUTF8)

def carryOut (here : Location) : Job → IO Report
  | .finish r => return r
  | .read path next => do carryOut here (next (← readBytes path))
  | .save path text next => do carryOut here (next (← saveText here path text))

/-- A seed for those who give none. -/
def freshSeed : IO Int := do
  let bytes ← IO.getRandomBytes 8
  return bytes.toList.foldl (fun n b => n * 256 + b.toNat) (0 : Nat)

def timeOfDay : IO String := do
  return (← Std.Time.PlainTime.now).format "HH:mm:ss"

/-- Prints a report and gives the code to end with. -/
def tell (r : Report) : IO UInt32 := do
  let time ← timeOfDay
  IO.print (Text.ofLines r.out)
  IO.eprint (Text.ofLines (r.remarks.map (Remark.text time)))
  match r.ending with
  | .exit code => return code.toUInt32
  | .failed f => do
    IO.eprintln f.message
    return 1

end Machine
end BracketTurtle

open BracketTurtle in
def main (arguments : List String) : IO UInt32 := do
  let here := (Path.ofText (toString (← IO.currentDir))).names
  let job := Program.job .machine (← Machine.freshSeed) arguments
  Machine.tell (← Machine.carryOut here job)
