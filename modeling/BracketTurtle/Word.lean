import BracketTurtle.Command
import BracketTurtle.Json.Writer
import BracketTurtle.Text.Lines

/-!
# Words

A word is a sequence of commands, written as their symbols in a row. Blanks around a written
word are left out; a word is never empty when it is read from text. A text with a character that
is no symbol is refused as a whole, and the first such character is reported with its position
in the text as given.

`push` opens a branch and `pop` closes the latest open one. The nesting of a word is its greatest
depth and the number of branches still open at its end.
-/

namespace BracketTurtle

abbrev Word := List Command

/-- Why something offered as a command or as a word is none. A symbol is a value, since what is
offered need not be text. -/
inductive WordError where
  | empty
  | unknownSymbol (symbol : Json) (position : Int)

def WordError.message : WordError → String
  | .empty => "Word must be a non-empty string"
  | .unknownSymbol symbol position =>
    "Unknown command symbol " ++ symbol.shown ++ " at position " ++ Number.integerText position

namespace Command

/-- The command written as a text of one symbol. -/
def ofSymbol (text : String) (position : Int) : Except WordError Command :=
  match text.toList with
  | [ch] =>
    match ofChar? ch with
    | some c => .ok c
    | none => .error (.unknownSymbol (.string text) position)
  | _ => .error (.unknownSymbol (.string text) position)

/-- A value is a command when it is the text of one. -/
def ofJson (value : Json) (position : Int) : Except WordError Command :=
  match value with
  | .string text => ofSymbol text position
  | _ => .error (.unknownSymbol value position)

end Command

namespace Word

/-- The first character that is no symbol, with its index counted from `offset`. -/
def firstUnknown? (offset : Nat) (cs : List Char) : Option (Char × Nat) :=
  (cs.zipIdx offset).find? fun p => (Command.ofChar? p.1).isNone

def ofChars (cs : List Char) : Except WordError Word :=
  let body := Text.trim cs
  if body.isEmpty then .error .empty
  else
    match firstUnknown? (Text.leadingBlanks cs) body with
    | some (c, i) => .error (.unknownSymbol (.string (String.singleton c)) i)
    | none => .ok (body.filterMap Command.ofChar?)

def parse (text : String) : Except WordError Word := ofChars text.toList

/-- Only text can be a word. -/
def ofJson : Json → Except WordError Word
  | .string text => parse text
  | _ => .error .empty

def symbols (w : Word) : List Char := w.map Command.symbol

def symbolsText (w : Word) : String := String.ofList w.symbols

/-- The names of the commands, as lists are shown. -/
def listing (w : Word) : String :=
  "[" ++ ", ".intercalate (w.map Command.name) ++ "]"

/-- How a word is shown where it could be any value. -/
def shown (w : Word) : String := "CommandSequence.parse(" ++ Text.quoted w.symbolsText ++ ")"

theorem filterMap_ofChar?_symbols (w : Word) : w.symbols.filterMap Command.ofChar? = w := by
  induction w with
  | nil => rfl
  | cons c w ih =>
    rw [symbols, List.map_cons, List.filterMap_cons_some (Command.ofChar?_symbol c)]
    exact congrArg (c :: ·) ih

end Word

/-! ## Nesting of branches -/

structure Nesting where
  depth : Nat
  unmatched : Nat
deriving DecidableEq, Repr

/-- The position of a `pop` that closes nothing. -/
structure UnmatchedPop where
  position : Nat
deriving DecidableEq, Repr

def UnmatchedPop.message (e : UnmatchedPop) : String :=
  "Unmatched pop at position " ++ Number.naturalText e.position

namespace Word

/-- Nesting from a position on, with the branches open there and the greatest depth before. -/
def nestingFrom (position : Nat) (n : Nesting) : Word → Except UnmatchedPop Nesting
  | [] => .ok n
  | .push :: w =>
    nestingFrom (position + 1) ⟨max n.depth (n.unmatched + 1), n.unmatched + 1⟩ w
  | .pop :: w =>
    if n.unmatched = 0 then .error ⟨position⟩
    else nestingFrom (position + 1) ⟨n.depth, n.unmatched - 1⟩ w
  | _ :: w => nestingFrom (position + 1) n w

def nesting (w : Word) : Except UnmatchedPop Nesting := w.nestingFrom 0 ⟨0, 0⟩

end Word

end BracketTurtle
