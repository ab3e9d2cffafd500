/-!
# Grammars of options

A grammar says which switches a program knows and which operands it has to be given. A switch has
a long name, written after two dashes, and may have a short one, written after one dash; it
stands alone or takes a value.
-/

namespace BracketTurtle

/-- What a switch asks for. -/
inductive Takes where
  /-- The page with the help. -/
  | help
  | nothing
  | text (placeholder : String)
  | integer (placeholder : String)
deriving DecidableEq, Repr

def Takes.placeholder? : Takes → Option String
  | .help | .nothing => none
  | .text p | .integer p => some p

structure Switch where
  short : Option Char
  long : String
  takes : Takes
  help : String
deriving DecidableEq, Repr

namespace Switch

def longName (s : Switch) : String := "--" ++ s.long

/-- The names as they are written, the short one first. -/
def names (s : Switch) : List String :=
  (s.short.map fun c => String.ofList ['-', c]).toList ++ [s.longName]

/-- The first name, with a placeholder for the value. -/
def brief (s : Switch) : String :=
  " ".intercalate ((s.names.take 1) ++ s.takes.placeholder?.toList)

/-- All names, each with a placeholder for the value. -/
def full (s : Switch) : String :=
  ", ".intercalate (s.names.map fun n => " ".intercalate (n :: s.takes.placeholder?.toList))

end Switch

/-- The switch that every grammar has. -/
def Switch.helpSwitch : Switch := ⟨some 'h', "help", .help, "show this help message and exit"⟩

/-- What an operand is made of. -/
inductive Extent where
  | one
  /-- One of the given commands and all arguments after it; every command has a line of help. -/
  | command (choices : List (String × String))
deriving DecidableEq, Repr

structure Operand where
  name : String
  extent : Extent
  help : Option String
deriving DecidableEq, Repr

namespace Operand

/-- The operand in usage lines and in help pages. -/
def shown (o : Operand) : String :=
  match o.extent with
  | .one => o.name
  | .command choices => "\x7b" ++ ",".intercalate (choices.map Prod.fst) ++ "\x7d"

def usage (o : Operand) : String :=
  match o.extent with
  | .one => o.shown
  | .command _ => o.shown ++ " ..."

/-- The commands to choose from, with their lines of help. -/
def choices (o : Operand) : List (String × String) :=
  match o.extent with
  | .one => []
  | .command choices => choices

end Operand

structure Grammar where
  program : String
  about : Option String
  switches : List Switch
  operands : List Operand
  /-- Lines at the end of the help page. -/
  closing : List String
deriving DecidableEq, Repr

end BracketTurtle
