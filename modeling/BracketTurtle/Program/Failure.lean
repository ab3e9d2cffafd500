import BracketTurtle.Config
import BracketTurtle.Files.Error
import BracketTurtle.Text.Utf8
import BracketTurtle.Word

/-!
# Failures of the program

Most failures are answered by a line that says whether the config, the word or a file is at
fault. Some are not: bytes that are no text, an integer beyond the doubles, a pen that looks in
an infinite direction, and a path or a seed that is none end the program as they are.
-/

namespace BracketTurtle

inductive Failure where
  | config (e : ConfigError)
  | word (e : WordError)
  | run (f : Fault)
  | nesting (e : UnmatchedPop)
  | file (e : FileError)
  | notText (e : Utf8.Malformed)
  | integerTooLarge
  /-- No path was given where one belongs. -/
  | noPath
  /-- No seed was given where one belongs. -/
  | noSeed

namespace Failure

def ofConfigFault : ConfigFault → Failure
  | .invalid e => .config e
  | .integerTooLarge => .integerTooLarge

def message : Failure → String
  | .config e => e.message
  | .word e => e.message
  | .run f => f.message
  | .nesting e => e.message
  | .file e => e.message
  | .notText e => e.message
  | .integerTooLarge => ConfigFault.message .integerTooLarge
  | .noPath => "expected str, bytes or os.PathLike object, not list"
  | .noSeed =>
    "The only supported seed types are: None,\nint, float, str, bytes, and bytearray."

/-- Who is at fault when a failure is answered. -/
inductive Subject where
  | config
  | word
  | file
deriving DecidableEq, Repr

def Subject.heading : Subject → String
  | .config => "Config error: "
  | .word => "Word error: "
  | .file => "File error: "

/-- The subject of an answer, if the failure is answered. -/
def subject? : Failure → Option Subject
  | .config (.drawing .noPoints) | .config (.drawing .negativePlaces) => none
  | .config _ => some .config
  | .word _ => some .word
  | .run ⟨.pen _, _, _⟩ => none
  | .run _ => some .word
  | .nesting _ => some .word
  | .file .nullInPath => none
  | .file _ => some .file
  | .notText _ | .integerTooLarge | .noPath | .noSeed => none

end Failure
end BracketTurtle
