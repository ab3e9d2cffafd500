/-!
# Paths

A path is the list of names between its slashes. Empty names do not count, but a slash at the
end is remembered, since it asks for a directory. `.` and `..` are names like any other here:
what they mean depends on whether the path is followed through a tree or only read as text.
-/

namespace BracketTurtle

abbrev Name := List Char

/-- The names on the way from the root. -/
abbrev Location := List Name

namespace Name

def here : Name := ['.']

def parent : Name := ['.', '.']

end Name

structure Path where
  /-- Slashes in front; a path without any starts from the working directory. -/
  lead : Nat
  names : List Name
  /-- Whether a slash stands at the end. -/
  closed : Bool
deriving DecidableEq, Repr

namespace Path

/-- The names between slashes, with the empty ones. -/
def pieces : List Char → List Name
  | [] => [[]]
  | c :: cs =>
    if c = '/' then [] :: pieces cs
    else
      match pieces cs with
      | [] => [[c]]
      | n :: ns => (c :: n) :: ns

def ofText (text : String) : Path :=
  let cs := text.toList
  { lead := (cs.takeWhile (· = '/')).length
    names := (pieces cs).filter (! ·.isEmpty)
    closed := cs.getLast? = some '/' }

/-- Where a path starts when the working directory is `here`. -/
def base (here : Location) (p : Path) : Location := if p.lead = 0 then here else []

/-- One step read as text: `..` takes back the name before, whatever it leads to. -/
def enter (l : Location) (n : Name) : Location :=
  if n = .here then l else if n = .parent then l.dropLast else l ++ [n]

/-- The location that a path names when it is only read as text. -/
def location (here : Location) (p : Path) : Location := p.names.foldl enter (p.base here)

/-- The root as a path writes it: exactly two slashes in front stay two. -/
def root (p : Path) : List Char := if p.lead = 2 then ['/', '/'] else ['/']

/-- A location as text. -/
def locationText (root : List Char) (l : Location) : String :=
  String.ofList (root ++ ['/'].intercalate l)

end Path
end BracketTurtle
