import BracketTurtle.CommandLine
import BracketTurtle.Drawing.Surface
import BracketTurtle.Json.Reader
import BracketTurtle.Program.Job
import BracketTurtle.Random.Source
import BracketTurtle.Random.Word

/-!
# The commands of the program

`render` draws a config into an SVG file, `validate` prints a summary of a config, `show` prints
the commands of a word, and `random` saves a config with a random word.
-/

namespace BracketTurtle

namespace Program

/-- The JSON value in the bytes of a file; `path` is only for messages, and `half` stands in for
halves of pairs. -/
def valueWith (half : Char) (path : String) (bytes : List UInt8) : Except Failure Json :=
  match Utf8.decode bytes with
  | .error e => .error (.notText e)
  | .ok text =>
    match Json.readWith half (Text.unifyLineEnds text) with
    | .error e => .error (.config (.malformed path e))
    | .ok v => .ok v

def configWith (half : Char) (path : String) (bytes : List UInt8) : Except Failure Config :=
  match valueWith half path bytes with
  | .error f => .error f
  | .ok v => (Config.ofJson v).mapError .ofConfigFault

def valueOf (path : String) (bytes : List UInt8) : Except Failure Json :=
  valueWith '\ufffd' path bytes

def configOf (path : String) (bytes : List UInt8) : Except Failure Config :=
  configWith '\ufffd' path bytes

/-- The config with another word, if one is given. -/
def override (word : Option String) (c : Config) : Except Failure Config :=
  match word with
  | none => .ok c
  | some text =>
    match Config.readWord "--word" text with
    | .error e => .error (.ofConfigFault e)
    | .ok w => .ok { c with word := w }

/-- The word of a config, plotted on an empty sheet. -/
def plotOf (A : Arithmetic) (c : Config) : Run (List Chain) :=
  c.course.runOn A Surface.plot [] c.word c.start

def noticesOf {σ : Type} (c : Config) (run : Run σ) : List Notice :=
  run.notices c.course c.word c.start

/-- The SVG document of a plot. -/
def drawingOf (c : Config) (plot : Run (List Chain)) : Except Failure String :=
  match plot.fault with
  | some f => .error (.run f)
  | none =>
    (Svg.document c.svg (some c.name) (polylines plot.canvas)).mapError fun e =>
      .config (.drawing e)

def wrote (path : String) : Notice := ⟨.info, "wrote " ++ path⟩

/-- Saves a text; a failure is reported after the notices so far. -/
def saving (verbose : Bool) (notices : List Notice) (path text : String) (after : List Notice) :
    Job :=
  .save path text fun
    | .error e => .finish (.failure verbose [] notices (.file e))
    | .ok _ => .finish (.success verbose [] (notices ++ after))

def render (A : Arithmetic) (verbose : Bool) (config : String) (output word : Option String) :
    Job :=
  .read config fun
    | .error e => .finish (.failure verbose [] [] (.file e))
    | .ok bytes =>
      match configOf config bytes with
      | .error f => .finish (.failure verbose [] [] f)
      | .ok c =>
        match override word c with
        | .error f => .finish (.failure verbose [] [] f)
        | .ok c =>
          let plot := plotOf A c
          let notices := noticesOf c plot
          match drawingOf c plot, output with
          | .error f, _ => .finish (.failure verbose [] notices f)
          | .ok _, none => .finish (.failure verbose [] notices .noPath)
          | .ok text, some path => saving verbose notices path text [wrote path]

/-- A truth value as summaries show it. -/
def flagText (b : Bool) : String := if b then "True" else "False"

/-- How often each command occurs, for those that do. -/
def countsText (w : Word) : String :=
  " ".intercalate
    ((Command.all.filter w.contains).map fun c =>
      c.name ++ "=" ++ Number.naturalText (w.count c))

def penText (p : Pen) : String :=
  "(" ++ Number.text p.x ++ "," ++ Number.text p.y ++ "," ++ Number.text p.heading ++ "deg)"

/-- The lines of a summary that come before the run. -/
def summary (c : Config) (n : Nesting) : List String :=
  ["name: " ++ c.name,
    "symbols: " ++ Number.naturalText c.word.length,
    "commands: " ++ countsText c.word,
    "branch depth: " ++ Number.naturalText n.depth,
    "turtle: step=" ++ Number.text c.course.step ++ " turn=" ++ Number.text c.course.turn ++
      " snap=" ++ flagText c.course.snap ++ " start=" ++ penText c.start,
    "svg: margin=" ++ Number.text c.svg.margin ++ " precision=" ++
      Number.integerText c.svg.places ++ " flip_y=" ++ flagText c.svg.flip]

def segmentsLine (n : Nat) : String := "segments: " ++ Number.naturalText n

/-- Branches that are still open at the end of a word are only worth a warning. -/
def warning (unmatched : Nat) : List String :=
  if unmatched = 0 then []
  else
    ["warning: " ++ Number.naturalText unmatched ++ " unmatched push(es) at end of word"]

def validation (A : Arithmetic) (verbose : Bool) (c : Config) : Report :=
  match c.word.nesting with
  | .error e => .failure verbose [] [] (.nesting e)
  | .ok n =>
    let run := c.course.run A c.word c.start
    let notices := noticesOf c run
    match run.fault with
    | some f => .failure verbose (summary c n) notices (.run f)
    | none =>
      let out := summary c n ++ [segmentsLine run.segments.length] ++ warning n.unmatched
      if run.segments.isEmpty then .failure verbose out notices (.config .nothingDrawn)
      else .success verbose out notices

def validate (A : Arithmetic) (verbose : Bool) (config : String) : Job :=
  .read config fun
    | .error e => .finish (.failure verbose [] [] (.file e))
    | .ok bytes =>
      match configOf config bytes with
      | .error f => .finish (.failure verbose [] [] f)
      | .ok c => .finish (validation A verbose c)

/-- A word with its run on the standard course. -/
def showing (A : Arithmetic) (verbose : Bool) (text : String) : Report :=
  match Word.parse text with
  | .error e => .failure verbose [] [] (.word e)
  | .ok w =>
    let run := Course.standard.run A w .origin
    let notices := run.notices .standard w .origin
    match run.fault with
    | some f => .failure verbose [w.listing] notices (.run f)
    | none => .success verbose [w.listing, segmentsLine run.segments.length] notices

def random (verbose : Bool) (output : String) (seed : Int) : Job :=
  let v := Random.config Twister.source (Twister.ofSeed seed)
  saving verbose [] output (String.ofList v.fileChars) []

/-- What a request is carried out by; `fresh` is the seed when none is given. -/
def perform (A : Arithmetic) (fresh : Int) (i : Invocation) : Job :=
  match i.request with
  | .render config output word => render A i.verbose config output word
  | .validate config => validate A i.verbose config
  | .show text => .finish (showing A i.verbose text)
  | .random output .fresh => random i.verbose output fresh
  | .random output (.given seed) => random i.verbose output seed
  | .random _ .missing => .finish (.failure i.verbose [] [] .noSeed)

/-- The report of a program that is only asked for help or was asked wrongly. -/
def helpReport (g : Grammar) : Report := ⟨g.helpPage, [], .exit 0⟩

def refusal (g : Grammar) (c : Complaint) : Report :=
  ⟨[], [.line g.usage, .line (g.program ++ ": error: " ++ c.message)], .exit Report.failureCode⟩

/-- The job of the program for its arguments. -/
def job (A : Arithmetic) (fresh : Int) (arguments : List String) : Job :=
  match CommandLine.read arguments with
  | .accepted i => perform A fresh i
  | .help g => .finish (helpReport g)
  | .refused g c => .finish (refusal g c)

end Program
end BracketTurtle
