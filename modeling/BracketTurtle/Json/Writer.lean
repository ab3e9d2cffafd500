import BracketTurtle.Number.Digits
import BracketTurtle.Number.Text
import BracketTurtle.Table
import BracketTurtle.Text.Quoted

/-!
# JSON values and their text

Whole numbers are exact and of any size, all other numbers are doubles, and the two stay apart: `1`
and `1.0` are different values. An object keeps its members in the order of their first appearance,
each key once, as a registry of values.

A layout says what stands before an item at a given depth and what stands between two items:
`spread` puts every item on a line of its own, indented by two spaces a level, and `oneLine` puts
all on one line. Characters are written as they are, but for quote, backslash and the control
characters of ASCII.
-/

namespace BracketTurtle

inductive Json where
  | null
  | bool (b : Bool)
  | integer (n : Int)
  | number (x : Float)
  | string (s : String)
  | array (items : List Json)
  | object (members : List (String × Json))
deriving Inhabited

namespace Json

/-- The name of the kind of a value in messages. -/
def kind : Json → String
  | .null => "NoneType"
  | .bool _ => "bool"
  | .integer _ => "int"
  | .number _ => "float"
  | .string _ => "str"
  | .array _ => "list"
  | .object _ => "dict"

structure Layout where
  before : Nat → List Char
  between : List Char

def Layout.spread : Layout := ⟨fun depth => '\n' :: List.replicate (2 * depth) ' ', [',']⟩

def Layout.oneLine : Layout := ⟨fun _ => [], [',', ' ']⟩

def writeChar (c : Char) : List Char :=
  match c with
  | '"' => ['\\', '"']
  | '\\' => ['\\', '\\']
  | '\n' => ['\\', 'n']
  | '\r' => ['\\', 'r']
  | '\t' => ['\\', 't']
  | '\x0c' => ['\\', 'f']
  | '\x08' => ['\\', 'b']
  | c => if c.toNat < 0x20 then '\\' :: 'u' :: Text.hex 4 c.toNat else [c]

def writeString (s : String) : List Char := '"' :: s.toList.flatMap writeChar ++ ['"']

def writeNumber (x : Float) : List Char :=
  match Number.exact x with
  | .notANumber => "NaN".toList
  | .infinite negative => (if negative then ['-'] else []) ++ "Infinity".toList
  | v => v.chars

mutual

def write (l : Layout) (depth : Nat) : Json → List Char
  | .null => "null".toList
  | .bool b => (if b then "true" else "false").toList
  | .integer n => Number.integerChars n
  | .number x => writeNumber x
  | .string s => writeString s
  | .array [] => ['[', ']']
  | .array (v :: vs) =>
    '[' :: l.before (depth + 1) ++ write l (depth + 1) v ++ writeItems l (depth + 1) vs ++
      l.before depth ++ [']']
  | .object [] => ['\x7b', '\x7d']
  | .object ((k, v) :: ms) =>
    '\x7b' :: l.before (depth + 1) ++ writeString k ++ [':', ' '] ++ write l (depth + 1) v ++
      writeMembers l (depth + 1) ms ++ l.before depth ++ ['\x7d']

/-- The items after the first. -/
def writeItems (l : Layout) (depth : Nat) : List Json → List Char
  | [] => []
  | v :: vs => l.between ++ l.before depth ++ write l depth v ++ writeItems l depth vs

/-- The members after the first. -/
def writeMembers (l : Layout) (depth : Nat) : List (String × Json) → List Char
  | [] => []
  | (k, v) :: ms =>
    l.between ++ l.before depth ++ writeString k ++ [':', ' '] ++ write l depth v ++
      writeMembers l depth ms

end

/-- The text of a file that holds the value. -/
def fileChars (v : Json) : List Char := write .spread 0 v ++ ['\n']

def oneLineText (v : Json) : String := String.ofList (write .oneLine 0 v)

mutual

/-- A value as messages show it. -/
def shown : Json → String
  | .null => "None"
  | .bool b => if b then "True" else "False"
  | .integer n => Number.integerText n
  | .number x => Number.text x
  | .string s => Text.quoted s
  | .array vs => "[" ++ ", ".intercalate (shownItems vs) ++ "]"
  | .object ms => "\x7b" ++ ", ".intercalate (shownMembers ms) ++ "\x7d"

def shownItems : List Json → List String
  | [] => []
  | v :: vs => shown v :: shownItems vs

def shownMembers : List (String × Json) → List String
  | [] => []
  | (k, v) :: ms => (Text.quoted k ++ ": " ++ shown v) :: shownMembers ms

end

end Json

end BracketTurtle
