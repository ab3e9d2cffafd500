import BracketTurtle.Options.Help
import BracketTurtle.Options.Reading

/-!
# The command line

The program knows four commands, each with a grammar of its own. A complaint is shown with the
usage line of the grammar that it is about; arguments that fit nowhere are complained about by the
program itself, its own before those of the command.
-/

namespace BracketTurtle

/-- Where the seed of a random word comes from. -/
inductive Seeding where
  | fresh
  | given (seed : Int)
  /-- A seed is announced, but `--` stands in its place. -/
  | missing
deriving DecidableEq, Repr

/-- What is asked of the program. -/
inductive Request where
  /-- The output is left out when a second `--` stands in its place. -/
  | render (config : String) (output : Option String) (word : Option String)
  | validate (config : String)
  | show (word : String)
  | random (output : String) (seeding : Seeding)
deriving DecidableEq, Repr

structure Invocation where
  verbose : Bool
  request : Request
deriving DecidableEq, Repr

namespace CommandLine

def program : String := "lsystem_turtle.py"

/-- What the help page says about words and configs. -/
def manual : List String :=
  [
    "WORD SYNTAX",
    "",
    "A word is a string of single-character commands (surrounding whitespace is",
    "ignored):",
    "",
    "  F   forward: move one step and draw",
    "  R   forward (second variant, draws exactly like F)",
    "  X   ignore: no effect",
    "  +   right: turn by +turn degrees",
    "  -   left: turn by -turn degrees",
    "  [   push: save the pen position and heading",
    "  ]   pop: restore the last saved pen",
    "",
    "Coordinates are screen space: x grows right, y grows down, heading 0 points",
    "along +x, so '+' turns clockwise on screen.",
    "",
    "INPUT JSON SYNTAX (render / validate)",
    "",
    "  name: string (optional)",
    "      Written into the SVG <title>.",
    "",
    "  word: string (required)",
    "      The expanded L-system word.",
    "",
    "  turtle: object (optional)",
    "    turtle.step: number (default 8)      Forward step length.",
    "    turtle.turn: number (default 25)     Turn increment in degrees.",
    "    turtle.snap: boolean (default true)  Round drawn coordinates to pixels.",
    "    turtle.start: \x7b\"x\": 0, \"y\": 0, \"heading\": 0\x7d",
    "",
    "  svg: object (optional)",
    "    svg.margin: number (default 10)",
    "    svg.precision: integer 0..10 (default 3)",
    "    svg.flip_y: boolean (default false)",
    "    svg.width / svg.height: number (optional)",
    "    svg.background: string color (optional)",
    "    svg.style: \x7bstroke, stroke_width, fill, stroke_linecap, stroke_linejoin\x7d",
    "",
    "Example",
    "",
    "    \x7b",
    "      \"word\": \"F[+F]F[-F]F\",",
    "      \"turtle\": \x7b\"step\": 10, \"turn\": 25, \"start\": \x7b\"heading\": -90\x7d\x7d",
    "    \x7d",
    "",
    "RANDOM INPUT GENERATION (random)",
    "",
    "  python lsystem_turtle.py random out.json --seed 123"
  ]

def commands : List (String × String) :=
  [("render", "Render a JSON config to an SVG file."),
    ("validate", "Validate a JSON config and print a brief summary."),
    ("show", "Parse a word and print its command list."),
    ("random", "Generate a random JSON config for experimentation.")]

def mainGrammar : Grammar where
  program := program
  about := some "Turtle interpreter for L-system words; outputs SVG."
  switches := [.helpSwitch, ⟨some 'v', "verbose", .nothing, "Enable debug logging."⟩]
  operands := [⟨"cmd", .command commands, none⟩]
  closing := manual

/-- The grammar of a command. -/
def commandGrammar (command : String) (switches : List Switch) (operands : List (String × String)) :
    Grammar where
  program := program ++ " " ++ command
  about := none
  switches := .helpSwitch :: switches
  operands := operands.map fun o => ⟨o.1, .one, some o.2⟩
  closing := []

def renderGrammar : Grammar :=
  commandGrammar "render"
    [⟨none, "word", .text "WORD", "Render this word instead of the config's."⟩]
    [("config", "Path to the input JSON config."), ("output", "Path to write the SVG output.")]

def validateGrammar : Grammar :=
  commandGrammar "validate" [] [("config", "Path to the input JSON config.")]

def showGrammar : Grammar :=
  commandGrammar "show" [] [("word", "Word to parse, e.g. 'F[+F]F'.")]

def seedSwitch : Switch :=
  ⟨none, "seed", .integer "SEED", "Seed for repeatable randomness."⟩

def randomGrammar : Grammar :=
  commandGrammar "random" [seedSwitch] [("output", "Where to write the generated JSON file.")]

/-- What the arguments come to. -/
inductive Outcome where
  | accepted (i : Invocation)
  | help (g : Grammar)
  | refused (g : Grammar) (c : Complaint)
deriving DecidableEq, Repr

def Outcome.ofHalt (g : Grammar) : Halt → Outcome
  | .help => .help g
  | .refused c => .refused g c

/-- What was given for the operand at an index. -/
def operand? (r : Reading) (i : Nat) : Option String := (r.operands.getD i []).head?

def operand (r : Reading) (i : Nat) : String := (operand? r i).getD ""

/-- The text given for a switch; a missing one is empty. -/
def text? (r : Reading) (long : String) : Option String :=
  match r.value? long with
  | some (.text s) => some s
  | some .missing => some ""
  | _ => none

def seeding (r : Reading) (long : String) : Seeding :=
  match r.value? long with
  | some (.integer n) => .given n
  | some .missing => .missing
  | _ => .fresh

def renderRequest (r : Reading) : Request :=
  .render (operand r 0) (operand? r 1) (text? r "word")

def validateRequest (r : Reading) : Request := .validate (operand r 0)

def showRequest (r : Reading) : Request := .show (operand r 0)

def randomRequest (r : Reading) : Request := .random (operand r 0) (seeding r "seed")

/-- The grammar of a command and what a reading by it asks for. -/
def command? (name : String) : Option (Grammar × (Reading → Request)) :=
  if name = "render" then some (renderGrammar, renderRequest)
  else if name = "validate" then some (validateGrammar, validateRequest)
  else if name = "show" then some (showGrammar, showRequest)
  else if name = "random" then some (randomGrammar, randomRequest)
  else none

/-- Reads the arguments of a command after those of the program itself. -/
def readCommand (main : Reading) (g : Grammar) (request : Reading → Request)
    (arguments : List String) : Outcome :=
  match g.read arguments with
  | .error halt => .ofHalt g halt
  | .ok r =>
    match main.unknown ++ r.unknown with
    | [] => .accepted ⟨(main.value? "verbose").isSome, request r⟩
    | unknown => .refused mainGrammar (.unrecognized unknown)

def read (arguments : List String) : Outcome :=
  match mainGrammar.read arguments with
  | .error halt => .ofHalt mainGrammar halt
  | .ok main =>
    let given := main.operands.headD []
    let name := given.headD ""
    match command? name with
    | none => .refused mainGrammar (.unknownCommand "cmd" name (commands.map Prod.fst))
    | some (g, request) => readCommand main g request given.tail

end CommandLine
end BracketTurtle
