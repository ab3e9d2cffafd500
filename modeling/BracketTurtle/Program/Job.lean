import BracketTurtle.Files.Tree
import BracketTurtle.Program.Failure
import BracketTurtle.Turtle

/-!
# Jobs and their reports

A job is all that a program does: it reads and saves files, each time going on with what comes of
it, and ends with a report. The report has the lines of the output, the remarks on the error stream,
and how the program ended; notices are among the remarks only when the program is asked to be
verbose. A job runs on a tree of files; the same job can be carried out on the files of a machine.
-/

namespace BracketTurtle

inductive Remark where
  | line (text : String)
  | notice (n : Notice)
deriving DecidableEq, Repr

inductive Ending where
  | exit (code : Nat)
  /-- A failure that the program does not answer. -/
  | failed (f : Failure)

structure Report where
  out : List String
  remarks : List Remark
  ending : Ending

namespace Report

/-- The code of a program that was refused or failed and said so. -/
def failureCode : Nat := 2

def noted (verbose : Bool) (notices : List Notice) : List Remark :=
  if verbose then notices.map .notice else []

def success (verbose : Bool) (out : List String) (notices : List Notice) : Report :=
  ⟨out, noted verbose notices, .exit 0⟩

def failure (verbose : Bool) (out : List String) (notices : List Notice) (f : Failure) : Report :=
  match f.subject? with
  | some subject =>
    ⟨out, noted verbose notices ++ [.line (subject.heading ++ f.message)], .exit failureCode⟩
  | none => ⟨out, noted verbose notices, .failed f⟩

end Report

/-- The remark on the error stream at the given time of day. -/
def Remark.text (time : String) : Remark → String
  | .line text => text
  | .notice n => n.line time

inductive Job where
  | finish (r : Report)
  | read (path : String) (next : Except FileError (List UInt8) → Job)
  | save (path : String) (text : String) (next : Except FileError Unit → Job)

namespace Job

/-- Runs a job in a directory of a tree; gives the report and the tree after it. -/
def run (here : Location) : Job → FileTree → Report × FileTree
  | .finish r, t => (r, t)
  | .read path next, t => (next (t.read here path)).run here t
  | .save path text next, t =>
    let (t, result) := t.save here path (Utf8.encode text.toList)
    (next result).run here t

@[simp] theorem run_finish (here : Location) (r : Report) (t : FileTree) :
    (Job.finish r).run here t = (r, t) := rfl

end Job

end BracketTurtle
