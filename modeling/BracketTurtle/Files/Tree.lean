import BracketTurtle.Files.Error
import BracketTurtle.Files.Path
import BracketTurtle.Table
import BracketTurtle.Text.Utf8

/-!
# Trees of files

A tree maps locations to files and directories; its root is always a directory. A path is
followed name by name, and every name but the last has to lead to a directory, also those that
`.` and `..` come after. So a path may fail although its text, with `..` taken back, names
something that is there.

Before a file is saved, the directories its path names as text are made, from the top down. What
was made before a step that fails stays.

There are no links, everything may be read and written, and there is room for all of it: a path
fails only for the names in it and for what stands under them.
-/

namespace BracketTurtle

inductive Entry where
  | file (bytes : List UInt8)
  | directory
deriving DecidableEq, Repr

structure FileTree where
  entries : Table Location Entry
deriving DecidableEq, Repr

namespace FileTree

def empty : FileTree := ⟨[]⟩

/-- What stands at a location. -/
def at? (t : FileTree) (l : Location) : Option Entry :=
  if l = [] then some .directory else t.entries.get? l

def put (t : FileTree) (l : Location) (e : Entry) : FileTree := ⟨t.entries.put l e⟩

theorem at?_put_self (t : FileTree) {l : Location} (h : l ≠ []) (e : Entry) :
    (t.put l e).at? l = some e := by
  simp [at?, put, h]

theorem at?_put_of_ne (t : FileTree) {l m : Location} (h : m ≠ l) (e : Entry) :
    (t.put l e).at? m = t.at? m := by
  simp [at?, put, Table.get?_put_of_ne h]

/-- The greatest size of a name in bytes. -/
def nameLimit : Nat := 255

/-- Paths of this many bytes and more are refused. -/
def pathLimit : Nat := 4096

def nameTooLong (n : Name) : Bool := nameLimit < (Utf8.encode n).length

def pathTooLong (text : String) : Bool := pathLimit ≤ (Utf8.encode text.toList).length

/-- What stands under a name in a directory. -/
def look (t : FileTree) (here : Location) (n : Name) : Except FileFault (Option Entry) :=
  if nameTooLong n then .error .nameTooLong else .ok (t.at? (here ++ [n]))

/-- Follows names through directories. -/
def walk (t : FileTree) (here : Location) : List Name → Except FileFault Location
  | [] => .ok here
  | n :: ns =>
    if n = .here then t.walk here ns
    else if n = .parent then t.walk here.dropLast ns
    else
      match t.look here n with
      | .error e => .error e
      | .ok none => .error .missing
      | .ok (some (.file _)) => .error .notADirectory
      | .ok (some .directory) => t.walk (here ++ [n]) ns

/-- Where a path leads: to a directory that is there, or to a name in one. -/
inductive Target where
  | directory (l : Location)
  | entry (parent : Location) (name : Name)
deriving DecidableEq, Repr

def target (t : FileTree) (here : Location) (p : Path) : Except FileFault Target :=
  match p.names.getLast? with
  | none => .ok (.directory (p.base here))
  | some n =>
    match t.walk (p.base here) p.names.dropLast with
    | .error e => .error e
    | .ok l =>
      if n = .here then .ok (.directory l)
      else if n = .parent then .ok (.directory l.dropLast)
      else .ok (.entry l n)

/-- Reads a path as names. -/
def openPath (text : String) : Except FileError Path :=
  if '\x00' ∈ text.toList then .error .nullInPath
  else if text.isEmpty then .error (.fault .missing text)
  else if pathTooLong text then .error (.fault .nameTooLong text)
  else .ok (.ofText text)

def bytesOf (t : FileTree) (here : Location) (p : Path) : Except FileFault (List UInt8) :=
  match t.target here p with
  | .error e => .error e
  | .ok (.directory _) => .error .isADirectory
  | .ok (.entry l n) =>
    match t.look l n with
    | .error e => .error e
    | .ok none => .error .missing
    | .ok (some .directory) => .error .isADirectory
    | .ok (some (.file bytes)) => if p.closed then .error .notADirectory else .ok bytes

/-- The bytes of a file. -/
def read (t : FileTree) (here : Location) (path : String) : Except FileError (List UInt8) :=
  match openPath path with
  | .error e => .error e
  | .ok p => (t.bytesOf here p).mapError (.fault · path)

/-- The location at which a path would have its file written. -/
def writeTarget (t : FileTree) (here : Location) (p : Path) : Except FileFault Location :=
  match t.target here p with
  | .error e => .error e
  | .ok (.directory _) => .error .isADirectory
  | .ok (.entry l n) =>
    if p.closed then .error .isADirectory
    else
      match t.look l n with
      | .error e => .error e
      | .ok (some .directory) => .error .isADirectory
      | .ok _ => .ok (l ++ [n])

/-- Writes a file anew; its directory has to be there. -/
def write (t : FileTree) (here : Location) (path : String) (bytes : List UInt8) :
    Except FileError FileTree :=
  match openPath path with
  | .error e => .error e
  | .ok p =>
    match t.writeTarget here p with
    | .error e => .error (.fault e path)
    | .ok l => .ok (t.put l (.file bytes))

/-- Makes the directories on the way from `here` down the given names. A file on the way is met
at the name after it; only at the last name it is in the way itself. -/
def makeDirectories (root : List Char) (here : Location) (t : FileTree) :
    List Name → FileTree × Except FileError Unit
  | [] => (t, .ok ())
  | n :: ns =>
    let next := here ++ [n]
    let path := Path.locationText root next
    if '\x00' ∈ n then (t, .error .nullInPath)
    else if pathTooLong path then (t, .error (.fault .nameTooLong path))
    else if t.at? here ≠ some .directory then (t, .error (.fault .notADirectory path))
    else if nameTooLong n then (t, .error (.fault .nameTooLong path))
    else
      match t.at? next with
      | none => makeDirectories root next (t.put next .directory) ns
      | some .directory => makeDirectories root next t ns
      | some (.file _) =>
        if ns.isEmpty then (t, .error (.fault .exists path)) else makeDirectories root next t ns

/-- Makes the directory that the text of a path puts its file in. -/
def makeParents (t : FileTree) (here : Location) (path : String) :
    FileTree × Except FileError Unit :=
  let p := Path.ofText path
  makeDirectories p.root [] t (p.location here).dropLast

/-- Makes the directories and writes the file. -/
def save (t : FileTree) (here : Location) (path : String) (bytes : List UInt8) :
    FileTree × Except FileError Unit :=
  match t.makeParents here path with
  | (t, .error e) => (t, .error e)
  | (t, .ok _) =>
    match t.write here path bytes with
    | .error e => (t, .error e)
    | .ok t => (t, .ok ())

end FileTree
end BracketTurtle
