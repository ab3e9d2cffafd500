import BracketTurtle.Drawing.Svg
import BracketTurtle.Json.Reader
import BracketTurtle.Table
import BracketTurtle.Turtle

/-!
# Render configs

A config is read from a JSON object. Every field but the word may be absent and then has its
default; unknown fields are ignored. Fields are checked in a fixed order, and the first that is
wrong is reported by its path.
-/

namespace BracketTurtle

structure Config where
  name : String
  word : Word
  course : Course
  start : Pen
  svg : Svg.Settings

/-- What a field has to be. -/
inductive Expected where
  | number
  | finite
  | integer
  | text
  | boolean
  | object
deriving DecidableEq, Repr

def Expected.message : Expected → String
  | .number => "a number"
  | .finite => "finite"
  | .integer => "an integer"
  | .text => "a string"
  | .boolean => "a boolean"
  | .object => "an object"

inductive ConfigError where
  | field (path : String) (expected : Expected)
  | wordMissing
  | word (path : String) (e : WordError)
  | placesOutOfRange
  | notPositive (path : String)
  | malformed (path : String) (e : Json.SyntaxError)
  | drawing (e : DrawingError)
  | nothingDrawn

def ConfigError.message : ConfigError → String
  | .field path expected => path ++ " must be " ++ expected.message
  | .wordMissing => "word is required"
  | .word path e => path ++ ": " ++ e.message
  | .placesOutOfRange => "svg.precision must be between 0 and 10"
  | .notPositive path => path ++ " must be > 0"
  | .malformed path e => "Invalid JSON in " ++ path ++ ": " ++ e.message
  | .drawing e => e.message
  | .nothingDrawn => "Config produces no drawable geometry"

/-- Why a value is no config: it breaks a rule, or an integer is beyond the range of doubles. -/
inductive ConfigFault where
  | invalid (e : ConfigError)
  | integerTooLarge

def ConfigFault.message : ConfigFault → String
  | .invalid e => e.message
  | .integerTooLarge => "int too large to convert to float"

namespace Config

abbrev Check (α : Type) := Except ConfigFault α

def wrong (path : String) (expected : Expected) : ConfigFault := .invalid (.field path expected)

def number (path : String) : Json → Check Float
  | .integer n =>
    match Number.nearest? n with
    | some x => .ok x
    | none => .error .integerTooLarge
  | .number x => if x.isFinite then .ok x else .error (wrong path .finite)
  | _ => .error (wrong path .number)

def integer (path : String) : Json → Check Int
  | .integer n => .ok n
  | _ => .error (wrong path .integer)

def text (path : String) : Json → Check String
  | .string s => .ok s
  | _ => .error (wrong path .text)

def boolean (path : String) : Json → Check Bool
  | .bool b => .ok b
  | _ => .error (wrong path .boolean)

def object (path : String) : Json → Check (Registry Json)
  | .object members => .ok members
  | _ => .error (wrong path .object)

def readWord (path s : String) : Check Word :=
  (Word.parse s).mapError fun e => .invalid (.word path e)

/-- A number above zero. -/
def positive (path : String) (v : Json) : Check Float := do
  let x ← number path v
  if 0 < x then return x else throw (.invalid (.notPositive path))

def places (path : String) (v : Json) : Check Int := do
  let n ← integer path v
  if 0 ≤ n ∧ n ≤ 10 then return n else throw (.invalid .placesOutOfRange)

/-- A field that may be absent. -/
def orElse {α : Type} (members : Registry Json) (key : String) (default : α)
    (read : Json → Check α) : Check α :=
  match members.get? key with
  | none => .ok default
  | some v => read v

/-- A field that may be absent or null. -/
def nullable {α : Type} (members : Registry Json) (key : String) (read : Json → Check α) :
    Check (Option α) :=
  match members.get? key with
  | none | some .null => .ok none
  | some v => (read v).map some

def pen (members : Registry Json) : Check Pen := do
  let x ← orElse members "x" 0 (number "turtle.start.x")
  let y ← orElse members "y" 0 (number "turtle.start.y")
  let heading ← orElse members "heading" 0 (number "turtle.start.heading")
  return ⟨x, y, heading⟩

def courseAndStart (members : Registry Json) : Check (Course × Pen) := do
  let step ← orElse members "step" Course.standard.step (number "turtle.step")
  let turn ← orElse members "turn" Course.standard.turn (number "turtle.turn")
  let snap ← orElse members "snap" Course.standard.snap (boolean "turtle.snap")
  let start ← orElse members "start" [] (object "turtle.start")
  let p ← pen start
  return (⟨step, turn, snap⟩, p)

def style (members : Registry Json) : Check Svg.Style := do
  let d := Svg.Style.standard
  let stroke ← orElse members "stroke" d.stroke (text "svg.style.stroke")
  let strokeWidth ← orElse members "stroke_width" d.strokeWidth (number "svg.style.stroke_width")
  let fill ← orElse members "fill" d.fill (text "svg.style.fill")
  let lineCap ← orElse members "stroke_linecap" d.lineCap (text "svg.style.stroke_linecap")
  let lineJoin ← orElse members "stroke_linejoin" d.lineJoin (text "svg.style.stroke_linejoin")
  return ⟨stroke, strokeWidth, fill, lineCap, lineJoin⟩

def settings (members : Registry Json) : Check Svg.Settings := do
  let margin ← orElse members "margin" 10 (number "svg.margin")
  let places ← orElse members "precision" 3 (places "svg.precision")
  let flip ← orElse members "flip_y" false (boolean "svg.flip_y")
  let width ← nullable members "width" (positive "svg.width")
  let height ← nullable members "height" (positive "svg.height")
  let styleMembers ← orElse members "style" [] (object "svg.style")
  let style ← style styleMembers
  let background ← nullable members "background" (text "svg.background")
  return ⟨margin, places, flip, width, height, style, background⟩

def ofMembers (members : Registry Json) : Check Config := do
  let name ← orElse members "name" "L-System" (text "name")
  match members.get? "word" with
  | none => throw (.invalid .wordMissing)
  | some v =>
    let w ← readWord "word" (← text "word" v)
    let turtle ← orElse members "turtle" [] (object "turtle")
    let (course, start) ← courseAndStart turtle
    let svg ← orElse members "svg" [] (object "svg")
    let svg ← settings svg
    return ⟨name, w, course, start, svg⟩

def ofJson (v : Json) : Check Config := do ofMembers (← object "root" v)

end Config
end BracketTurtle
