import BracketTurtle.Drawing.Point
import BracketTurtle.Pen
import BracketTurtle.Word

/-!
# Turtles

A turtle carries a pen and a stack of saved pens along a word. A course fixes the length of a
step, the angle of a turn, and whether what is drawn is rounded to pixels. A run stops at the
first command that faults; what was drawn before stays drawn.
-/

namespace BracketTurtle

structure Course where
  step : Float
  turn : Float
  snap : Bool

/-- Steps of 8, turns of 25 degrees, on the pixel grid. -/
def Course.standard : Course := ⟨8, 25, true⟩

/-- Why a command cannot be carried out. -/
inductive Cause where
  | noSavedPen
  | notFinite (x y : Float)
  | pen (e : PenError)

/-- A turtle on its way. It draws on a canvas of any kind, which only has to take segments. -/
structure Turtle (σ : Type) where
  pen : Pen
  /-- Saved pens, latest first. -/
  saved : List Pen
  canvas : σ
  /-- How many segments have been drawn. -/
  drawn : Nat
  /-- How many commands have been carried out. -/
  taken : Nat

def Turtle.start {σ : Type} (canvas : σ) (p : Pen) : Turtle σ := ⟨p, [], canvas, 0, 0⟩

namespace Course

/-- The point at which a pen draws. -/
def point (A : Arithmetic) (c : Course) (p : Pen) : Except Cause Point :=
  if p.isFinite then
    if c.snap then
      match p.pixel A with
      | .ok (x, y) => .ok ⟨.pixel x, .pixel y⟩
      | .error e => .error (.pen e)
    else .ok ⟨.exact p.x, .exact p.y⟩
  else .error (.notFinite p.x p.y)

/-- Moves a pen and gives the segment it draws. -/
def stroke (A : Arithmetic) (c : Course) (p : Pen) : Except Cause (Pen × Segment) :=
  match c.point A p with
  | .error e => .error e
  | .ok a =>
    match p.move A c.step with
    | .error e => .error (.pen e)
    | .ok q =>
      match c.point A q with
      | .error e => .error e
      | .ok b => .ok (q, ⟨a, b⟩)

/-- What a command does to a pen and the saved pens, and the segment it draws, if any. -/
def act (A : Arithmetic) (c : Course) (cmd : Command) (p : Pen) (saved : List Pen) :
    Except Cause (Pen × List Pen × Option Segment) :=
  match cmd with
  | .forward | .forward2 =>
    match c.stroke A p with
    | .error e => .error e
    | .ok (q, s) => .ok (q, saved, some s)
  | .right => .ok (p.rotate A c.turn, saved, none)
  | .left => .ok (p.rotate A (-c.turn), saved, none)
  | .push => .ok (p, p :: saved, none)
  | .pop =>
    match saved with
    | [] => .error .noSavedPen
    | q :: rest => .ok (q, rest, none)
  | .ignore => .ok (p, saved, none)

variable {σ : Type}

def advance (A : Arithmetic) (c : Course) (draw : σ → Segment → σ) (cmd : Command) (t : Turtle σ) :
    Except Cause (Turtle σ) :=
  match c.act A cmd t.pen t.saved with
  | .error e => .error e
  | .ok (p, saved, none) => .ok ⟨p, saved, t.canvas, t.drawn, t.taken + 1⟩
  | .ok (p, saved, some s) => .ok ⟨p, saved, draw t.canvas s, t.drawn + 1, t.taken + 1⟩

/-- Carries out a word up to its end or to the first fault. -/
def follow (A : Arithmetic) (c : Course) (draw : σ → Segment → σ) (t : Turtle σ) :
    Word → Turtle σ × Option Cause
  | [] => (t, none)
  | cmd :: w =>
    match c.advance A draw cmd t with
    | .ok t' => follow A c draw t' w
    | .error e => (t, some e)

theorem follow_append (A : Arithmetic) (c : Course) (draw : σ → Segment → σ) (t : Turtle σ)
    (u v : Word) :
    c.follow A draw t (u ++ v) =
      match c.follow A draw t u with
      | (t', none) => c.follow A draw t' v
      | (t', some e) => (t', some e) := by
  induction u generalizing t with
  | nil => rfl
  | cons cmd u ih =>
    simp only [List.cons_append, follow]
    cases c.advance A draw cmd t with
    | ok t' => exact ih t'
    | error e => rfl

end Course

/-- A fault with the position of its command and the number of segments drawn before. -/
structure Fault where
  cause : Cause
  position : Nat
  drawn : Nat

def Fault.message (f : Fault) : String :=
  match f.cause with
  | .noSavedPen =>
    "Pop at position " ++ Number.naturalText f.position ++ " with no saved pen state (" ++
      Number.naturalText f.drawn ++ " segment(s) already drawn)"
  | .notFinite x y =>
    "Pen position is not finite: (" ++ Number.text x ++ ", " ++ Number.text y ++ ")"
  | .pen e => e.message

/-- What a run leaves: the canvas, how many segments it drew, how many saved pens no `pop` came
back to, and the fault that ended it, if any. -/
structure Run (σ : Type) where
  canvas : σ
  drawn : Nat
  unmatched : Nat
  fault : Option Fault

/-- A run on a canvas that may have been drawn on before. -/
def Course.runOn {σ : Type} (A : Arithmetic) (c : Course) (draw : σ → Segment → σ) (canvas : σ)
    (w : Word) (start : Pen) : Run σ :=
  let (t, cause) := c.follow A draw (.start canvas start) w
  ⟨t.canvas, t.drawn, t.saved.length, cause.map fun e => ⟨e, t.taken, t.drawn⟩⟩

/-- A run that only collects its segments, latest first. -/
def Course.run (A : Arithmetic) (c : Course) (w : Word) (start : Pen) : Run (List Segment) :=
  c.runOn A (fun drawn s => s :: drawn) [] w start

/-- The segments of a run in the order in which they were drawn. -/
def Run.segments (r : Run (List Segment)) : List Segment := r.canvas.reverse

/-! ## Notices -/

inductive Level where
  | debug
  | info
deriving DecidableEq, Repr

def Level.name : Level → String
  | .debug => "DEBUG"
  | .info => "INFO"

/-- What a program tells about its own work while it runs. -/
structure Notice where
  level : Level
  text : String
deriving DecidableEq, Repr

/-- The notice as one line of a log kept at the given time of day. -/
def Notice.line (time : String) (n : Notice) : String :=
  time ++ " - lsystem_turtle - " ++ n.level.name ++ " - " ++ n.text

/-- The notices of a run: one at its start, and up to two at its end if it does not fault. -/
def Run.notices {σ : Type} (r : Run σ) (c : Course) (w : Word) (start : Pen) : List Notice :=
  ⟨.debug, "run: " ++ Number.naturalText w.length ++ " commands, step=" ++ Number.text c.step ++
      " turn=" ++ Number.text c.turn ++ " start=" ++ start.shown⟩ ::
    match r.fault with
    | some _ => []
    | none =>
      (if r.unmatched = 0 then []
        else [⟨.debug, "run: discarding " ++ Number.naturalText r.unmatched ++
          " unmatched push(es)"⟩]) ++
        [⟨.debug, "run: " ++ Number.naturalText r.drawn ++ " segment(s) drawn"⟩]

end BracketTurtle
