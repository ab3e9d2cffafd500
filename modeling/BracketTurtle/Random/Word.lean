import BracketTurtle.Json.Writer
import BracketTurtle.Random.Source
import BracketTurtle.Word

/-!
# Random words and configs

A random word opens and closes branches as it goes and never closes one that is not open. The
branches still open after the given number of commands are closed at the end, and a word that
would draw nothing gets one step.
-/

namespace BracketTurtle
namespace Random

variable {σ : Type}

/-- How many commands are asked for, how likely a branch is, and how deep branches may nest. -/
structure Shape where
  length : Int
  branch : Float
  depth : Int

def Shape.standard (length : Int) : Shape := ⟨length, 0.15, 4⟩

/-- A command that neither opens nor closes a branch. -/
def plain (t : Float) : Command :=
  if t < 0.45 then .forward
  else if t < 0.55 then .forward2
  else if t < 0.60 then .ignore
  else if t < 0.80 then .right
  else .left

/-- The next command when `depth` branches are open. Where no branch is open, the numbers that
would close one stand for plain commands. -/
def command (S : Source σ) (shape : Shape) (depth : Nat) (g : σ) : Command × σ :=
  let (r, g) := S.unit g
  if r < shape.branch ∧ depth < shape.depth then (.push, g)
  else if r < shape.branch * 2 ∧ 0 < depth then (.pop, g)
  else
    let (t, g) := S.unit g
    (plain t, g)

def depthAfter (depth : Nat) : Command → Nat
  | .push => depth + 1
  | .pop => depth - 1
  | _ => depth

/-- Commands one after the other, latest first, and the number of branches open after them. -/
def commands (S : Source σ) (shape : Shape) : Nat → Word → Nat → σ → Word × Nat × σ
  | 0, read, depth, g => (read, depth, g)
  | n + 1, read, depth, g =>
    let (c, g) := command S shape depth g
    commands S shape n (c :: read) (depthAfter depth c) g

/-- Closes the open branches, and adds a step if nothing is drawn. -/
def finish (w : Word) (depth : Nat) : Word :=
  let w := w ++ List.replicate depth .pop
  if w.any Command.draws then w else w ++ [.forward]

def word (S : Source σ) (shape : Shape) (g : σ) : Word × σ :=
  let (read, depth, g) := commands S shape shape.length.toNat [] 0 g
  (finish read.reverse depth, g)

def turns : List Json :=
  [.integer 15, .integer 20, .number 22.5, .integer 25, .integer 30, .integer 36, .integer 45,
    .integer 60, .integer 90]

def steps : List Json := [.integer 5, .integer 8, .integer 10, .integer 12, .integer 15]

/-- One of the values of a list. -/
def choose (S : Source σ) (choices : List Json) (g : σ) : Json × σ :=
  let (i, g) := S.index choices.length g
  (choices.getD i .null, g)

/-- A config as a JSON object: a turn, a step, a length from 40 to 160, then the word. -/
def config (S : Source σ) (g : σ) : Json :=
  let (turn, g) := choose S turns g
  let (step, g) := choose S steps g
  let (extra, g) := S.index 121 g
  let (w, _) := word S (.standard (40 + extra)) g
  .object
    [("name", .string "Random L-System Word"),
      ("word", .string w.symbolsText),
      ("turtle", .object
        [("step", step), ("turn", turn), ("snap", .bool true),
          ("start", .object
            [("x", .integer 0), ("y", .integer 0), ("heading", .integer (-90))])]),
      ("svg", .object
        [("margin", .integer 10), ("precision", .integer 3), ("flip_y", .bool false),
          ("style", .object
            [("stroke", .string "#000"), ("stroke_width", .number 1),
              ("fill", .string "none"), ("stroke_linecap", .string "round"),
              ("stroke_linejoin", .string "round")])])]

end Random
end BracketTurtle
