import BracketTurtle.Options.Grammar

/-!
# Usage lines and help pages

A help page lists operands and switches in rows of two columns. The second column starts after
the widest entry of the first, but never beyond a fixed column; an entry that reaches beyond it
has a line of its own.
-/

namespace BracketTurtle

/-- An entry of a help page, indented by `indent`. -/
structure HelpRow where
  indent : Nat
  entry : String
  help : Option String
deriving DecidableEq, Repr

namespace HelpRow

def spaces (n : Nat) : String := String.ofList (List.replicate n ' ')

def lines (column : Nat) (r : HelpRow) : List String :=
  let entry := spaces r.indent ++ r.entry
  match r.help with
  | none => [entry]
  | some help =>
    if entry.length + 2 ≤ column then [entry ++ spaces (column - entry.length) ++ help]
    else [entry, spaces column ++ help]

end HelpRow

namespace Grammar

/-- The second column starts here at the latest. -/
def lastColumn : Nat := 24

def usage (g : Grammar) : String :=
  "usage: " ++ " ".intercalate
    (g.program :: g.switches.map (fun s => "[" ++ s.brief ++ "]") ++ g.operands.map Operand.usage)

def operandRows (o : Operand) : List HelpRow :=
  ⟨2, o.shown, o.help⟩ :: o.choices.map fun c => ⟨4, c.1, some c.2⟩

def switchRow (s : Switch) : HelpRow := ⟨2, s.full, some s.help⟩

/-- The entries of operands and switches decide on the width of the first column, those of
commands do not. -/
def helpColumn (g : Grammar) : Nat :=
  let entries := g.operands.flatMap (fun o => o.shown :: o.choices.map Prod.fst) ++
    g.switches.map Switch.full
  min (entries.foldl (fun w e => max w (2 + e.length)) 0 + 2) lastColumn

/-- A section with a heading, after an empty line; without rows there is none. -/
def helpSection (column : Nat) (heading : String) (rows : List HelpRow) : List String :=
  if rows.isEmpty then [] else "" :: heading :: rows.flatMap (HelpRow.lines column)

/-- The lines of the help page. -/
def helpPage (g : Grammar) : List String :=
  let column := g.helpColumn
  [g.usage] ++
    (match g.about with
      | some text => ["", text]
      | none => []) ++
    helpSection column "positional arguments:" (g.operands.flatMap operandRows) ++
    helpSection column "options:" (g.switches.map switchRow) ++
    if g.closing.isEmpty then [] else "" :: g.closing

end Grammar
end BracketTurtle
